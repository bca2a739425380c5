/-!
# Protected names

A name is protected when something outside the module refers to it by its exact spelling: the language
itself, the host that runs the program, or a library object that the program talks to.  No profile can
make such a name renamable, and no short name is ever spelled like one.
-/

set_option autoImplicit false

namespace Abridge

/-- Reserved words, contextual keywords and the names that the language gives a meaning of its own. -/
def reservedNames : List String :=
  ["break", "case", "catch", "class", "const", "continue", "debugger", "default", "delete", "do",
   "else", "enum", "export", "extends", "false", "finally", "for", "function", "if", "import",
   "in", "instanceof", "new", "null", "return", "super", "switch", "this", "throw", "true", "try",
   "typeof", "var", "void", "while", "with", "yield", "let", "static", "implements", "interface",
   "package", "private", "protected", "public", "await", "async", "of", "get", "set", "as",
   "from", "arguments", "eval", "constructor", "prototype", "__proto__", "undefined", "NaN",
   "Infinity", "declare", "type", "namespace", "module", "abstract", "readonly", "keyof", "infer",
   "is", "asserts", "unique", "satisfies"]

/-- Globals of the host: language built-ins, browsers and servers. -/
def hostGlobals : List String :=
  ["Object", "Function", "Array", "String", "Number", "Boolean", "Symbol", "BigInt", "Math",
   "JSON", "Date", "RegExp", "Error", "TypeError", "RangeError", "SyntaxError", "ReferenceError",
   "EvalError", "URIError", "AggregateError", "Promise", "Map", "Set", "WeakMap", "WeakSet",
   "WeakRef", "Proxy", "Reflect", "ArrayBuffer", "SharedArrayBuffer", "DataView", "Int8Array",
   "Uint8Array", "Uint8ClampedArray", "Int16Array", "Uint16Array", "Int32Array", "Uint32Array",
   "Float32Array", "Float64Array", "BigInt64Array", "BigUint64Array", "Intl", "globalThis",
   "parseInt", "parseFloat", "isNaN", "isFinite", "encodeURI", "decodeURI", "encodeURIComponent",
   "decodeURIComponent", "queueMicrotask", "structuredClone", "window", "self", "document",
   "navigator", "location", "history", "console", "localStorage", "sessionStorage", "fetch",
   "Request", "Response", "Headers", "URL", "URLSearchParams", "FormData", "Blob", "File",
   "FileReader", "Image", "Event", "CustomEvent", "EventTarget", "HTMLElement", "Element", "Node",
   "MutationObserver", "IntersectionObserver", "ResizeObserver", "WebSocket", "Worker",
   "XMLHttpRequest", "AbortController", "TextEncoder", "TextDecoder", "crypto", "performance",
   "alert", "confirm", "prompt", "atob", "btoa", "setTimeout", "clearTimeout", "setInterval",
   "clearInterval", "requestAnimationFrame", "cancelAnimationFrame", "requestIdleCallback",
   "getComputedStyle", "matchMedia", "indexedDB", "caches", "process", "require", "module",
   "exports", "global", "Buffer", "__dirname", "__filename", "setImmediate", "clearImmediate"]

/-- Objects supplied by libraries that a program is linked against. -/
def libraryGlobals : List String :=
  ["React", "ReactDOM", "useState", "useEffect", "useLayoutEffect", "useRef", "useMemo",
   "useCallback", "useContext", "useReducer", "useId", "useTransition", "useDeferredValue",
   "useSyncExternalStore", "useImperativeHandle", "useInsertionEffect", "useDebugValue",
   "createElement", "createContext", "forwardRef", "memo", "lazy", "Suspense", "Fragment",
   "StrictMode", "jsx", "jsxs", "jsxDEV", "createRoot", "hydrateRoot", "setState", "THREE",
   "WebGLRenderer", "Scene", "PerspectiveCamera", "OrthographicCamera", "Mesh", "Vector3",
   "Quaternion", "Color", "BufferGeometry", "Clock", "WebGLRenderingContext",
   "WebGL2RenderingContext", "ethereum", "ethers", "web3", "Web3", "solana", "phantom",
   "BigNumber", "Wallet", "Provider", "Contract"]

/-- Whether a name is reserved. -/
def isReservedName (name : String) : Bool := reservedNames.contains name

/-- Whether a name keeps its spelling under every profile. -/
def isProtectedName (name : String) : Bool :=
  reservedNames.contains name || hostGlobals.contains name || libraryGlobals.contains name

end Abridge
