import Abridge.Syntax.Layout.Statements

/-!
# Printing a program

Every form has one layout, chosen here by its kind, and a program is the layout of its directives and
statements.
-/

set_option autoImplicit false

namespace Abridge

namespace Layout

/-- The kinds of forms, by the module that lays them out. -/
inductive Kind where
  | expression | pattern | markup | type | typeDeclaration | statement | moduleItem | member
  deriving DecidableEq

/-- The kind of a form. -/
def kindOf : Form → Kind
  | .objectPattern | .bindingProperty .. | .arrayPattern | .defaulted | .rest | .objectTarget
  | .targetShorthand | .targetProperty _ | .arrayTarget | .targetDefault | .targetRest | .params
  | .param .. | .restParam => .pattern
  | .element | .fragment | .opening _ | .closing | .namespacedTag | .memberTag | .markupAttribute
  | .spreadAttribute | .attributeText _ | .container | .spreadChild | .markupText _ => .markup
  | .directive _ | .block | .body | .moduleBlock | .empty | .expression | .variables .. | .if | .for
  | .forIn | .forOf _ | .while | .doWhile | .return | .throw | .break | .continue | .labelled
  | .switch | .case | .try | .catch | .with | .debugger => .statement
  | .import .. | .exportNamed _ | .exportDefault | .exportAll _ => .moduleItem
  | .typeAlias _ | .interface _ | .enum .. | .enumMember _ | .global _ | .importEquals _
  | .externalModule | .exportAssignment | .namespaceExport => .typeDeclaration
  | .keywordType _ | .thisType | .numberType _ | .typeRef | .heritage | .qualified | .typeQuery
  | .typeLiteral | .arrayType | .indexedType | .tupleType | .optionalType | .nullableType _
  | .restType | .namedMember _ | .unionType | .intersectionType | .parenType | .conditionalType
  | .inferType | .operatorType _ | .mappedType .. | .literalType | .templateType _ | .functionType
  | .constructorType _ | .importType | .predicate _ | .typeParams | .typeParam _ | .typeArgs
  | .propertySignature .. | .methodSignature .. | .callSignature | .constructSignature
  | .indexSignature .. => .type
  | .method .. | .field _ | .staticBlock => .member
  | _ => .expression

/-- The layout of a node. -/
def node (f : Form) (ps : List Tree) (m : Mode) : Layout Unit :=
  match f, ps with
  | .namespace keyword ambient, [n, body] => namespaceDeclaration keyword ambient n body
  | f, ps =>
    match kindOf f with
    | .expression => expression f ps m
    | .pattern => pattern f ps
    | .markup => markupText f ps
    | .type => type f ps
    | .typeDeclaration => typeDeclaration f ps
    | .statement => statement f ps
    | .moduleItem => moduleItem f ps
    | .member => member f ps

/-- The layout of a tree. -/
def tree (t : Tree) (m : Mode) : Layout Unit :=
  match t with
  | .absent => pure ()
  | .binding n | .reference n | .name n | .label n | .markupName n => word n
  | .privateName n => emit ("#" ++ n)
  | .string lit => emit (stringSpelling true lit)
  | .number lit => number lit m
  | .quoted lit => emit (stringSpelling false lit)
  | .node f ps => node f ps m

/-- Lays out a tree; a part has less fuel. -/
def run : Nat → Tree → Mode → StateM Out Unit
  | 0, _, _ => pure ()
  | fuel + 1, t, m => tree t m (run fuel)

/-- The layout of directives and statements. -/
def program (p : Program) : Layout Unit := do
  match p.hashbang with
  | some line => emit ("#!" ++ line ++ "\n")
  | none => pure ()
  each directive p.directives
  each (fun s => do paySemicolon; free s) p.statements
  paySemicolon

end Layout

/-- The compact text of a program. -/
def Program.print (p : Program) (markup : Bool) : String :=
  let fuel := Tree.heights p.statements + 1
  ((Layout.program p (Layout.run fuel)).run { markup }).2.text

end Abridge
