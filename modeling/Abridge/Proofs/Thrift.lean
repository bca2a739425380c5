import Abridge.Proofs.Grammar
import Abridge.Proofs.Once
import Abridge.Syntax.Parse
import Mathlib.Data.List.Nodup

/-!
# The grammar reads each literal once

One fact for each function of the grammar, in its order.  A function that only puts together what others
give needs no argument: how its trees are paid for is found by search.  Those that look at the current
token, or take a tree apart, are split at that point first.  A target weighs no more than the expression
that it is made from, and of the names of an export specifier, which may stand in a tree twice, none is a
literal.

Main statement: the literals of a program stand at offsets of their own (`Program.nodup_offsets`).
-/

set_option autoImplicit false
set_option synthInstance.maxSize 1000000000
set_option synthInstance.maxHeartbeats 200000

namespace Abridge

section

variable [Marked] {Γ Γ' Γ'' : List Nat}

open Weighted (weight)

namespace Parse

/-! ## Tokens -/

instance {p : String} : Keeps [] (atPunct p) := by
  unfold atPunct
  refine .step fun t => ?_
  split <;> infer_instance

instance {ps : List String} : Keeps [] (atAny ps) := by
  unfold atAny
  refine .step fun t => ?_
  split <;> infer_instance

instance {w : String} : Keeps [] (atWord w) := by
  unfold atWord
  refine .step fun t => ?_
  split <;> infer_instance

instance {ws : List String} : Keeps [] (atWords ws) := by
  unfold atWords
  refine .step fun t => ?_
  split <;> infer_instance

instance {p : String} : Keeps [] (eat p) := by unfold eat; infer_instance

instance {w : String} : Keeps [] (eatWord w) := by unfold eatWord; infer_instance

instance {p : String} : Keeps [] (expect p) := by unfold expect; infer_instance

instance {w : String} : Keeps [] (expectWord w) := by unfold expectWord; infer_instance

instance {test : Parse Bool} : Keeps [] (nextIs test) := by unfold nextIs; infer_instance

instance : Keeps [] canEndStatement := by unfold canEndStatement; infer_instance

instance : Keeps [] endStatement := by unfold endStatement; infer_instance

instance keeps_separated {α : Type} [Weighted α] {close : String} {item : Parse α} [Keeps [] item] :
    Keeps [] (Parse.separated close item) := by
  unfold separated
  infer_instance

instance : Keeps [] joinAngle := by
  unfold joinAngle
  refine .step fun angle => ?_
  split
  · refine keeps_reread fun s => ?_
    split
    · exact ⟨.plain rfl _, rfl⟩
    · exact ⟨.plain rfl _, rfl⟩
  · infer_instance

/-- Reading an angle again takes it alone. -/
instance {p : String} : Keeps [] (reread fun s => (.punct p, s.advance 1)) :=
  keeps_reread fun _ => ⟨.plain rfl _, rfl⟩

instance : Keeps [] splitAngle := by unfold splitAngle; infer_instance

instance : Keeps [] expectClosingAngle := by unfold expectClosingAngle; infer_instance

instance : Keeps [] (reread Source.templateTail) := by
  refine keeps_reread fun s => ⟨Source.forward_templateTail s, ?_⟩
  unfold Source.templateTail
  dsimp only
  split <;> rfl

instance : Keeps [] (reread Source.regex) := by
  refine keeps_reread fun s => ⟨Source.forward_regex s, ?_⟩
  unfold Source.regex
  dsimp only
  repeat' split
  all_goals rfl

instance : Keeps [] (reread Source.markupName) := by
  refine keeps_reread fun s => ⟨Source.forward_markupName s, ?_⟩
  unfold Source.markupName
  repeat' split
  all_goals rfl

instance : Keeps [] (advanceBy Source.markupChild) := keeps_advanceBy Source.follows_markupChild

instance {script : Bool} : Keeps [] (advanceBy (Source.attributeValue script)) :=
  keeps_advanceBy (Source.follows_attributeValue script)

/-! ## Names and keys -/

instance : Keeps [] atIdentifier := by
  unfold atIdentifier
  refine .step fun t => ?_
  split <;> infer_instance

instance : Keeps [] atAnyWord := by
  unfold atAnyWord
  refine .step fun t => ?_
  split <;> infer_instance

instance : Keeps [] anyWord := by
  unfold anyWord
  refine .step fun t => ?_
  split <;> infer_instance

instance : Keeps [] identifier := by
  unfold identifier
  refine .step fun t => ?_
  split <;> infer_instance

instance : Keeps [] bindingName := by unfold bindingName; infer_instance

instance : Keeps [] referenceName := by unfold referenceName; infer_instance

instance : Keeps [] propertyWord := by unfold propertyWord; infer_instance

instance : Keeps [] quotedString := by
  unfold quotedString
  refine .step fun t => ?_
  split <;> infer_instance

instance : Keeps [] moduleName := by
  unfold moduleName
  refine .step fun t => ?_
  split <;> infer_instance

instance : Keeps [] atKey := by
  unfold atKey
  refine .step fun t => ?_
  split <;> infer_instance

instance : Keeps [] propertyNameBody := by
  unfold propertyNameBody
  refine .tokenAt fun start t => ?_
  split
  · exact .string
  · exact .number
  all_goals exact .of_keeps inferInstance

instance : Keeps [] key := by
  unfold key
  refine .bind fun t => ?_
  split
  · exact .unwrap inferInstance
  · infer_instance

instance : Keeps [] memberKey := by
  unfold memberKey
  refine .step fun t => ?_
  split <;> infer_instance

instance : Keeps [] atModified := by
  unfold atModified
  refine .step fun t => ?_
  split <;> infer_instance

instance {m : Modifiers} {w : String} : Keeps [] (addModifier m w) := by
  unfold addModifier
  refine .step fun _ => ?_
  split <;> infer_instance

instance {words : List String} {seen : Modifiers} : Keeps [] (atModifier words seen) := by
  unfold atModifier
  refine .step fun t => ?_
  split <;> infer_instance

instance {words : List String} : Keeps [] (modifiers words) := by unfold modifiers; infer_instance

instance : Keeps [] decorators := by unfold decorators; infer_instance

/-! ## Types -/

instance {conditional : Bool} : Keeps [] (typeWith conditional) := by
  unfold typeWith
  infer_instance

instance : Keeps [] annotation := by unfold annotation; infer_instance

instance : Keeps [] returnAnnotation := by unfold returnAnnotation; infer_instance

instance : Keeps [] typeArguments := by unfold typeArguments; infer_instance

instance : Keeps [] typeArguments? := by unfold typeArguments?; infer_instance

instance : Keeps [] typeParamModifiers := by unfold typeParamModifiers; infer_instance

instance : Keeps [] typeParam := by unfold typeParam; dsimp only; infer_instance

instance : Keeps [] typeParamsBody := by unfold typeParamsBody; infer_instance

instance : Keeps [] skipParamStart := by unfold skipParamStart; infer_instance

instance : Keeps [] opensParams := by unfold opensParams; infer_instance

instance : Keeps [] atFunctionType := by unfold atFunctionType; infer_instance

theorem weight_splitParams (t : Tree) : weight (splitParams t).1 + weight (splitParams t).2 = weight t := by
  unfold splitParams
  split
  · exact (weight_node_pair _ _ _).symm
  · exact Nat.zero_add _

/-- A list of parameters is always taken apart. -/
instance (priority := high) {α : Type} [Weighted α] {f : Tree → Parse α}
    [hf : ∀ t, Keeps (weight (splitParams t).1 :: weight (splitParams t).2 :: Γ) (f t)] :
    Keeps Γ (call .params >>= f) :=
  .bind fun t => (hf t).mono (by
    have := weight_splitParams t
    simp only [List.sum_cons]
    omega)

instance : Keeps [] functionType := by unfold functionType; dsimp only; infer_instance

instance : Keeps [] typeName := by unfold typeName; dsimp only; infer_instance

instance : Keeps [] typeReference := by unfold typeReference; infer_instance

instance {hole : Parse Tree} [Keeps [] hole] : Keeps [] (templateParts hole) := by
  unfold templateParts
  refine .of_pays (.iterate_triple fun pieces ok holes => ?_)
  dsimp only
  refine .step fun t => ?_
  split <;> infer_instance

instance : Keeps [] templateType := by unfold templateType; infer_instance

instance : Keeps [] atMappedType := by unfold atMappedType; infer_instance

instance {present : Parse Bool} [Keeps [] present] : Keeps [] (mappedModifier present) := by
  unfold mappedModifier
  infer_instance

instance : Keeps [] mappedType := by unfold mappedType; dsimp only; infer_instance

instance : Keeps [] tupleElement := by
  unfold tupleElement
  refine .step fun labelled => .ite inferInstance ?_
  refine .step fun spread => .ite inferInstance ?_
  refine .bind fun t => ?_
  split
  · exact .unwrap inferInstance
  · infer_instance

instance : Keeps [] tupleType := by unfold tupleType; infer_instance

instance : Keeps [] importType := by unfold importType; dsimp only; infer_instance

instance : Keeps [] typeQuery := by
  unfold typeQuery
  dsimp only
  refine .step fun _ => .step fun imported => ?_
  split
  · refine .bind fun n => ?_
    split <;> infer_instance
  · refine .bind fun n => ?_
    split <;> infer_instance

instance : Keeps [] negativeType := by
  unfold negativeType
  refine .step fun _ => .tokenAt fun start t => ?_
  split
  · exact .literal rfl fun _ _ _ _ => by simpa using weight_number
  all_goals exact .of_keeps inferInstance

instance : Keeps [] simpleType := by
  unfold simpleType
  refine .step fun t => ?_
  split
  case h_6 =>
    refine .step fun mapped => .ite inferInstance ?_
    refine .bind fun ms => ?_
    split
    · exact .unpack inferInstance
    · infer_instance
  all_goals infer_instance

instance : Keeps [] atTypeStart := by
  unfold atTypeStart
  refine .step fun t => ?_
  split <;> infer_instance

instance : Keeps [] suffixedType := by unfold suffixedType; infer_instance

instance : Keeps [] inferConstraint := by unfold inferConstraint; infer_instance

theorem keeps_applyOperators (ws : List String) : ∀ t : Tree, Keeps [weight t] (applyOperators t ws) := by
  induction ws with
  | nil => intro t; unfold applyOperators; infer_instance
  | cons w ws ih =>
    intro t
    unfold applyOperators
    exact .step fun _ => (ih (.node (.operatorType w) [t])).of_pays

instance {t : Tree} {ws : List String} [Pays Γ t Γ'] : Uses Γ (applyOperators t ws) Γ' :=
  .of_pays (keeps_applyOperators ws t)

instance : Keeps [] operatorType := by unfold operatorType; dsimp only; infer_instance

instance : Keeps [] constituent := by unfold constituent; infer_instance

instance : Keeps [] unionType := by unfold unionType joined; infer_instance

instance : Keeps [] typeBody := by unfold typeBody; infer_instance

instance : Keeps [] returnTypeBody := by unfold returnTypeBody; dsimp only; infer_instance

instance : Keeps [] atIndexSignature := by unfold atIndexSignature; infer_instance

instance {static readonly : Bool} : Keeps [] (indexSignature static readonly) := by
  unfold indexSignature
  infer_instance

instance : Keeps [] signatureTail := by unfold signatureTail; dsimp only; infer_instance

instance : Keeps [] typeMember := by unfold typeMember; dsimp only; infer_instance

instance : Keeps [] endMember := by unfold endMember; infer_instance

instance : Keeps [] typeMembersBody := by unfold typeMembersBody; infer_instance

/-! ## Patterns, parameters and targets -/

instance : Keeps [] initialiser := by unfold initialiser; infer_instance

instance : Keeps [] defaultedPattern := by unfold defaultedPattern; infer_instance

instance : Keeps [] restPattern := by unfold restPattern; infer_instance

instance : Keeps [] bindingProperty := by
  unfold bindingProperty
  refine .step fun rest => .ite inferInstance ?_
  refine .step fun named => .bind_pair fun k computed => .step fun colon => ?_
  dsimp only
  split <;> infer_instance

instance : Keeps [] objectPattern := by unfold objectPattern; infer_instance

instance {item : Parse Tree} [Keeps [] item] : Keeps [] (elements item) := by
  unfold elements
  infer_instance

instance : Keeps [] arrayPattern := by unfold arrayPattern; infer_instance

instance : Keeps [] patternBody := by unfold patternBody; infer_instance

instance : Keeps [] param := by unfold param; dsimp only; infer_instance

instance : Keeps [] paramsBody := by unfold paramsBody; dsimp only; infer_instance

theorem weight_simpleTarget? {e t : Tree} (h : simpleTarget? e = some t) : weight t ≤ weight e := by
  fun_induction simpleTarget? e with
  | case1 => cases h
  | case2 => cases h
  | case3 e _ _ ih => simpa using ih h
  | case4 | case6 | case8 | case10 | case12 => cases h; exact Nat.le_refl _
  | case5 | case7 | case9 | case11 | case13 => cases h

mutual

theorem weight_targetOf {defaults : Bool} {e t : Tree} (h : targetOf defaults e = some t) :
    weight t ≤ weight e := by
  unfold targetOf at h
  split at h
  · split at h
    · cases h
      simp
    · cases h
  · split at h
    · rename_i ts hts
      have := weight_targetElements hts
      split at h
      · cases h
      · cases h
        simpa only [weight_node] using this
    · cases h
  · split at h
    · rename_i ts hts
      have := weight_targetProperties hts
      split at h
      · cases h
      · cases h
        simpa only [weight_node] using this
    · cases h
  · exact weight_simpleTarget? h
termination_by sizeOf e
decreasing_by
  all_goals subst_vars
  all_goals simp only [Tree.node.sizeOf_spec]
  all_goals omega

theorem weight_targetElements {es ts : List Tree} (h : targetElements es = some ts) :
    weight ts ≤ weight es := by
  unfold targetElements at h
  split at h
  · cases h
    exact Nat.le_refl _
  · obtain ⟨us, hus, rfl⟩ := Option.map_eq_some_iff.1 h
    rw [weight_cons, weight_cons]
    exact Nat.add_le_add_left (weight_targetElements hus) _
  · split at h
    · obtain ⟨t, ht, rfl⟩ := Option.map_eq_some_iff.1 h
      rw [weight_cons, weight_cons]
      exact Nat.add_le_add (by simpa using weight_targetOf ht) (Nat.zero_le _)
    · cases h
  · split at h
    · rename_i t us ht hus
      cases h
      rw [weight_cons, weight_cons]
      exact Nat.add_le_add (weight_targetOf ht) (weight_targetElements hus)
    · cases h
termination_by sizeOf es
decreasing_by
  all_goals subst_vars
  all_goals simp only [Tree.node.sizeOf_spec, List.cons.sizeOf_spec]
  all_goals omega

theorem weight_targetProperties {ps ts : List Tree} (h : targetProperties ps = some ts) :
    weight ts ≤ weight ps := by
  unfold targetProperties at h
  split at h
  · cases h
    exact Nat.le_refl _
  · split at h
    · obtain ⟨t, ht, rfl⟩ := Option.map_eq_some_iff.1 h
      rw [weight_cons, weight_cons]
      exact Nat.add_le_add (by simpa using weight_targetOf ht) (Nat.zero_le _)
    · cases h
  · rename_i info k v es
    extract_lets found at h
    split at h
    · rename_i t us ht hus
      cases h
      rw [weight_cons, weight_cons]
      refine Nat.add_le_add ?_ (weight_targetProperties hus)
      have habsent : weight Tree.absent = 0 := rfl
      unfold found at ht
      split at ht
      · split at ht
        · cases ht
          simp only [weight_node_pair]
          omega
        · cases ht
          simp only [weight_node_pair]
          omega
      split at ht
      · cases ht
      · obtain ⟨u, hu, rfl⟩ := Option.map_eq_some_iff.1 ht
        have hle := weight_targetOf hu
        simp only [weight_node_pair]
        omega
    · cases h
  · cases h
termination_by sizeOf ps
decreasing_by
  all_goals subst_vars
  all_goals simp only [Tree.node.sizeOf_spec, List.cons.sizeOf_spec]
  all_goals omega

end

/-- An expression pays for the target that it denotes. -/
instance {e : Tree} [Pays Γ e Γ'] : Uses Γ (target e) Γ' := by
  refine .of_pays (a := e) ?_
  unfold target
  split
  · rename_i t ht
    exact keeps_pure (h := (⟨Nat.add_le_add_right (weight_targetOf ht) 0⟩ : Pays _ _ []))
  · infer_instance

instance {e : Tree} [Pays Γ e Γ'] : Uses Γ (placeTarget e) Γ' := by
  refine .of_pays (a := e) ?_
  unfold placeTarget
  split
  · rename_i t ht
    exact keeps_pure (h := (⟨Nat.add_le_add_right (weight_simpleTarget? ht) 0⟩ : Pays _ _ []))
  · infer_instance

/-! ## Functions, classes and object literals -/

instance {async generator bodyRequired : Bool} :
    Keeps [] (functionTail async generator bodyRequired) := by
  unfold functionTail
  dsimp only
  infer_instance

instance {expression async : Bool} {ms : Modifiers} {defaultExport : Bool} :
    Keeps [] (functionBodyOf expression async ms defaultExport) := by
  unfold functionBodyOf
  dsimp only
  infer_instance

instance {async generator bodyRequired : Bool} :
    Keeps [] (methodFunction async generator bodyRequired) := by
  unfold methodFunction
  infer_instance

instance {kind : PropertyKind} {f : Tree} : Keeps [] (checkAccessor kind f) := by
  unfold checkAccessor
  split <;> infer_instance

instance {w : String} : Keeps [] (atAccessor w) := by unfold atAccessor; infer_instance

instance {kind : PropertyKind} {async generator : Bool} :
    Keeps [] (objectMethod kind async generator) := by
  unfold objectMethod
  infer_instance

instance : Keeps [] objectProperty := by
  unfold objectProperty
  refine .step fun word => ?_
  extract_lets rest
  have hrest : ∀ async : Bool, Keeps [] (rest async) := by
    intro async
    refine .step fun spread => .ite inferInstance (.ite inferInstance ?_)
    refine .step fun getter => .ite inferInstance ?_
    refine .step fun setter => .ite inferInstance ?_
    refine .step fun generator => .ite inferInstance ?_
    refine .step fun named => .bind_pair fun k computed => .step fun method => .ite inferInstance ?_
    refine .step fun colon => ?_
    dsimp only
    split <;> infer_instance
  clear_value rest
  infer_instance

instance : Keeps [] objectLiteral := by unfold objectLiteral; infer_instance

instance : Keeps [] arrayLiteral := by unfold arrayLiteral; infer_instance

instance {ds k : Tree} {kind : MethodKind} {generator : Bool} {info : MemberInfo} [Pays Γ ds Γ']
    [Pays Γ' k Γ''] : Uses Γ (classMethod ds k kind generator info) Γ'' := by
  refine .of_pays_both (a := ds) (b := k) ?_
  unfold classMethod
  cases kind <;> dsimp only <;> infer_instance

instance {ds k : Tree} {info : MemberInfo} [Pays Γ ds Γ'] [Pays Γ' k Γ''] :
    Uses Γ (classField ds k info) Γ'' := by
  refine .of_pays_both (a := ds) (b := k) ?_
  unfold classField
  dsimp only
  infer_instance

instance : Keeps [] classMember.isPrivate := by
  unfold classMember.isPrivate
  refine .step fun t => ?_
  split <;> infer_instance

instance : Keeps [] classMember := by unfold classMember; dsimp only; infer_instance

instance : Keeps [] classMembers := by unfold classMembers; infer_instance

instance : Keeps [] heritageType := by unfold heritageType; infer_instance

instance {expression : Bool} {ds : Tree} {ms : Modifiers} [Pays Γ ds Γ'] :
    Uses Γ (classBodyOf expression ds ms) Γ' := by
  refine .of_pays (a := ds) ?_
  unfold classBodyOf
  refine .step fun _ => .step fun heritage => .step fun named => ?_
  extract_lets info rest
  have hrest : ∀ n : Tree, Keeps [weight n, weight ds] (rest n) := by
    intro n
    refine .bind fun tps => .step fun derived => ?_
    extract_lets finish
    have hfinish : ∀ base args : Tree,
        Keeps [weight base, weight args, weight tps, weight n, weight ds] (finish (base, args)) := by
      intro base args
      dsimp only [finish]
      infer_instance
    clear_value finish
    split
    · refine .bind fun e => ?_
      split
      · refine .unwrap_pair ?_
        infer_instance
      · dsimp only
        infer_instance
    · infer_instance
  clear_value rest
  infer_instance

/-! ## Markup -/

instance {p : String} : Keeps [] (expectThenChild p) := by unfold expectThenChild; infer_instance

instance {p : String} {inside : Bool} : Keeps [] (expectEnd p inside) := by
  unfold expectEnd
  infer_instance

instance : Keeps [] markupWord := by
  unfold markupWord
  refine .step fun _ => .step fun _ => .step fun _ => .step fun t => ?_
  split <;> infer_instance

instance {w : String} : Pays Γ (tagObject w) Γ := by unfold tagObject; infer_instance

instance : Keeps [] tagName := by unfold tagName; infer_instance

instance : Keeps [] containerExpression := by unfold containerExpression; infer_instance

instance : Keeps [] attributeValue := by
  unfold attributeValue
  refine .step fun t => ?_
  split <;> infer_instance

instance : Keeps [] markupAttribute := by unfold markupAttribute; dsimp only; infer_instance

instance : Keeps [] child := by
  unfold child
  refine .step fun t => ?_
  split <;> infer_instance

instance : Keeps [] children := by unfold children; infer_instance

instance {inside : Bool} : Keeps [] (markupBody inside) := by
  unfold markupBody
  dsimp only
  infer_instance

instance : Keeps [] markupExpression := by unfold markupExpression; infer_instance

/-! ## Expressions -/

instance : Keeps [] templateLiteral := by unfold templateLiteral; infer_instance

instance {tag args : Tree} [Pays Γ tag Γ'] [Pays Γ' args Γ''] :
    Uses Γ (taggedTemplate tag args) Γ'' := by
  refine .of_pays_both (a := tag) (b := args) ?_
  unfold taggedTemplate
  infer_instance

instance : Keeps [] parenthesised := by
  unfold parenthesised
  refine .step fun _ => .bind_pair fun es comma => .step fun _ => .step fun _ => ?_
  split
  · infer_instance
  · rename_i e
    have hkeeps : Keeps [weight e] (pure (Tree.node .paren [e])) := inferInstance
    refine hkeeps.mono ?_
    rw [List.sum_cons, List.sum_cons, weight_cons]
    exact Nat.le_trans (Nat.le_add_right _ _) (Nat.le_add_right _ _)
  · infer_instance

instance : Keeps [] arguments := by unfold arguments; infer_instance

instance {phase : Option String} : Keeps [] (importCall phase) := by
  unfold importCall
  dsimp only
  infer_instance

instance : Keeps [] importExpression := by
  unfold importExpression
  refine .step fun _ => .step fun dot => ?_
  split
  · refine .step fun t => ?_
    split <;> infer_instance
  · infer_instance

instance : Keeps [] regexLiteral := by
  unfold regexLiteral
  refine .step fun _ => .step fun t => ?_
  split <;> infer_instance

instance : Keeps [] identifierExpression := by unfold identifierExpression; infer_instance

instance : Keeps [] atAsyncFunction := by unfold atAsyncFunction; infer_instance

instance {w : String} : Keeps [] (wordExpression w) := by
  unfold wordExpression
  split <;> infer_instance

instance : Keeps [] primary := by
  unfold primary
  refine .tokenAt fun start t => ?_
  split
  · exact .number
  · exact .string
  all_goals exact .of_keeps inferInstance

instance {object : Tree} {optional : Bool} [Pays Γ object Γ'] :
    Uses Γ (memberAfterDot object optional) Γ' := by
  refine .of_pays (a := object) ?_
  unfold memberAfterDot
  refine .step fun t => ?_
  split <;> infer_instance

instance {object : Tree} {optional : Bool} [Pays Γ object Γ'] :
    Uses Γ (memberInBrackets object optional) Γ' := by
  refine .of_pays (a := object) ?_
  unfold memberInBrackets
  infer_instance

instance : Keeps [] atExpressionStart := by
  unfold atExpressionStart
  refine .step fun t => ?_
  split <;> infer_instance

instance : Keeps [] atBinaryOperator := by
  unfold atBinaryOperator
  refine .step fun t => ?_
  split <;> infer_instance

instance : Keeps [] followsTypeArguments := by
  unfold followsTypeArguments
  refine .step fun t => ?_
  split <;> infer_instance

instance : Keeps [] expressionTypeArguments := by unfold expressionTypeArguments; infer_instance

instance : Keeps [] memberRest.isTemplate := by
  unfold memberRest.isTemplate
  refine .step fun t => ?_
  split <;> infer_instance

instance {object : Tree} {chain links : Bool} [Pays Γ object Γ'] :
    Uses Γ (memberRest object chain links) Γ' := by
  refine .of_pays (a := (object, chain)) ?_
  unfold memberRest
  refine .iterate_pair fun e chain => ?_
  dsimp only
  refine .step fun t => ?_
  split
  case h_5 =>
    refine .step fun _ => ?_
    split
    · exact .unwrap_pair inferInstance
    · infer_instance
  all_goals infer_instance

theorem weight_splitInstantiation (e : Tree) :
    weight (splitInstantiation e).1 + weight (splitInstantiation e).2 = weight e := by
  unfold splitInstantiation
  split
  · exact (weight_node_pair _ _ _).symm
  · rfl

theorem Keeps.split_instantiation {α : Type} [Weighted α] {e : Tree} {p : Parse α}
    (h : Keeps (weight (splitInstantiation e).1 :: weight (splitInstantiation e).2 :: Γ) p) :
    Keeps (weight e :: Γ) p :=
  h.mono (by
    have := weight_splitInstantiation e
    simp only [List.sum_cons]
    omega)

instance {object : Tree} [Pays Γ object Γ'] : Uses Γ (callRest object) Γ' := by
  refine .of_pays (a := (object, false)) ?_
  unfold callRest
  refine .iterate_pair fun e chain => .bind_pair fun e chain => .step fun link => ?_
  dsimp only
  split
  · refine .step fun _ => .bind fun args => .step fun t => ?_
    split <;> infer_instance
  · refine .step fun opens => ?_
    split
    · exact .split_instantiation inferInstance
    · infer_instance

theorem weight_asChain (e : Tree) : weight (asChain e) = weight e := by
  fun_induction asChain e with
  | case1 e args ih =>
    rw [weight_node_pair, weight_node_pair, ih]
  | case7 => rfl
  | _ => exact weight_node_singleton _ _

instance {e : Tree} [h : Pays Γ e Γ'] : Pays Γ (asChain e) Γ' := ⟨by rw [weight_asChain]; exact h.pays⟩

instance {target : Parse Tree} [Keeps [] target] : Keeps [] (newExpression target) := by
  unfold newExpression
  refine .step fun _ => .step fun dot => .ite inferInstance ?_
  refine .bind fun first => .bind_pair fun e chain => .split_instantiation ?_
  dsimp only
  refine .step fun open' => ?_
  split
  · refine .bind fun vs => ?_
    split <;> infer_instance
  · refine .step fun _ => .step fun _ => .bind fun vs => ?_
    split <;> infer_instance

instance {n : Nat} : Keeps [] (primaryOrNew n) := by
  induction n with
  | zero => unfold primaryOrNew; infer_instance
  | succ n ih => unfold primaryOrNew; infer_instance

instance : Keeps [] leftHandSideBody := by unfold leftHandSideBody; dsimp only; infer_instance

instance : Keeps [] updateExpression := by unfold updateExpression; infer_instance

instance : Keeps [] typeAssertion := by unfold typeAssertion; infer_instance

instance : Keeps [] atAwait.operandFollows := by
  unfold atAwait.operandFollows
  refine .step fun t => ?_
  split <;> infer_instance

instance : Keeps [] atAwait := by unfold atAwait; infer_instance

instance : Keeps [] unaryBody := by
  unfold unaryBody
  refine .step fun t => ?_
  split <;> infer_instance

instance : Keeps [] binaryOp? := by
  unfold binaryOp?
  refine .step fun _ => .step fun t => ?_
  split <;> infer_instance

instance {left : Tree} {level : Nat} [Pays Γ left Γ'] : Uses Γ (binaryRest left level) Γ' := by
  unfold binaryRest
  dsimp only
  infer_instance

instance {level : Nat} : Keeps [] (binaryBody level) := by
  unfold binaryBody
  refine .step fun t => ?_
  split <;> infer_instance

instance : Keeps [] parenHint := by
  unfold parenHint
  dsimp only
  refine .step fun empty => .ite inferInstance ?_
  refine .step fun pattern => .ite inferInstance ?_
  refine .step fun spread => .ite inferInstance ?_
  refine .step fun decorated => .ite inferInstance ?_
  refine .step fun t => ?_
  split <;> infer_instance

instance : Keeps [] angleHint := by unfold angleHint; infer_instance

instance : Keeps [] arrowHint := by unfold arrowHint; dsimp only; infer_instance

instance : Weighted ArrowHead :=
  ⟨fun head => weight head.typeParams + (weight head.params + weight head.returnType)⟩

instance {Γ₃ : List Nat} {async : Bool} {tps ps ret : Tree} [htps : Pays Γ tps Γ'] [hps : Pays Γ' ps Γ'']
    [hret : Pays Γ'' ret Γ₃] : Pays Γ (⟨async, tps, ps, ret⟩ : ArrowHead) Γ₃ := by
  refine ⟨?_⟩
  have := htps.pays
  have := hps.pays
  have := hret.pays
  change weight tps + (weight ps + weight ret) + Γ₃.sum ≤ Γ.sum
  omega

instance : Keeps [] arrowHead := by unfold arrowHead; dsimp only; infer_instance

instance {head : ArrowHead} {returnType : Bool} [Pays Γ head Γ'] : Uses Γ (arrowBody head returnType) Γ' := by
  refine .of_pays (a := head) (Keeps.mono (Γ := [weight head.typeParams, weight head.params, weight head.returnType]) ?_ ?_)
  · unfold arrowBody
    dsimp only
    infer_instance
  · change _ ≤ weight head.typeParams + (weight head.params + weight head.returnType) + 0
    simp

instance {returnType : Bool} : Keeps [] (possibleArrow returnType) := by
  unfold possibleArrow
  infer_instance

instance {name : String} {async returnType : Bool} : Keeps [] (bareArrow name async returnType) := by
  unfold bareArrow
  dsimp only
  infer_instance

instance : Keeps [] atAsyncBareArrow := by unfold atAsyncBareArrow; infer_instance

instance : Keeps [] atYield := by unfold atYield; infer_instance

instance : Keeps [] yieldExpression := by unfold yieldExpression; dsimp only; infer_instance

instance {returnType : Bool} : Keeps [] (operatorExpression returnType) := by
  unfold operatorExpression
  refine .bind fun left => .step fun t => ?_
  split
  · infer_instance
  · split
    · dsimp only
      infer_instance
    · infer_instance
  · infer_instance

instance {returnType : Bool} : Keeps [] (assignmentBody returnType) := by
  unfold assignmentBody
  refine .step fun yields => .ite inferInstance ?_
  refine .step fun hint => ?_
  dsimp only
  split <;> infer_instance

instance : Keeps [] expressionBody := by unfold expressionBody; infer_instance

/-! ## Statements -/

instance {atEnd : Parse Bool} [Keeps [] atEnd] : Keeps [] (bodyItems atEnd) := by
  unfold bodyItems
  refine .of_pays (.iterate_triple fun ds ss head => ?_)
  dsimp only
  refine .step fun ends => .ite inferInstance ?_
  refine .step fun first => .bind fun s => ?_
  split <;> infer_instance

instance : Keeps [] atBlockEnd := by unfold atBlockEnd; infer_instance

instance : Keeps [] bracedStatements := by unfold bracedStatements; infer_instance

instance : Keeps [] blockBody := by unfold blockBody; infer_instance

instance {ds : List String} : Pays Γ (ds.map fun d => Tree.node (.directive d) []) Γ := by
  refine .nothing ?_
  induction ds with
  | nil => rfl
  | cons d ds ih =>
    rw [List.map_cons, weight_cons, ih]
    rfl

instance : Keeps [] functionBodyBody := by unfold functionBodyBody; dsimp only; infer_instance

instance : Keeps [] moduleBlockBody := by unfold moduleBlockBody; infer_instance

instance {word : VarWord} {ambient loose : Bool} : Keeps [] (declarator word ambient loose) := by
  unfold declarator
  dsimp only
  infer_instance

instance {word : VarWord} {ambient loose : Bool} : Keeps [] (declarators word ambient loose) := by
  unfold declarators
  infer_instance

instance {word : VarWord} {place : Place} {ambient : Bool} :
    Keeps [] (variableStatement word place ambient) := by
  unfold variableStatement
  infer_instance

instance {e : Tree} [Pays Γ e Γ'] : Uses Γ (expressionStatement e) Γ' := by
  refine .of_pays (a := e) ?_
  unfold expressionStatement
  infer_instance

instance : Keeps [] expressionOrLabelled := by
  unfold expressionOrLabelled
  refine .bind fun e => .step fun colon => ?_
  split <;> infer_instance

instance : Keeps [] condition := by unfold condition; infer_instance

instance {place : Place} : Keeps [] (letUse place) := by
  unfold letUse
  refine .step fun next => ?_
  split <;> infer_instance

instance {place : Place} : Keeps [] (letStatement place) := by
  unfold letStatement
  refine .step fun use => ?_
  split <;> infer_instance

instance {form : Form} : Keeps [] (jump form) := by unfold jump; dsimp only; infer_instance

instance : Keeps [] returnStatement := by unfold returnStatement; dsimp only; infer_instance

instance : Keeps [] throwStatement := by unfold throwStatement; infer_instance

instance : Keeps [] ifStatement := by unfold ifStatement; dsimp only; infer_instance

instance : Keeps [] whileStatement := by unfold whileStatement; infer_instance

instance : Keeps [] doStatement := by unfold doStatement; infer_instance

instance : Keeps [] withStatement := by unfold withStatement; infer_instance

instance : Keeps [] caseClause := by unfold caseClause; dsimp only; infer_instance

instance : Keeps [] switchStatement := by unfold switchStatement; infer_instance

instance : Keeps [] tryStatement := by unfold tryStatement; dsimp only; infer_instance

instance {init : Tree} {isAwait : Bool} [Pays Γ init Γ'] : Uses Γ (countingLoop init isAwait) Γ' := by
  refine .of_pays (a := init) ?_
  unfold countingLoop
  dsimp only
  infer_instance

instance {left : Tree} {isAwait : Bool} [Pays Γ left Γ'] : Uses Γ (iteratingLoop left isAwait) Γ' := by
  refine .of_pays (a := left) ?_
  unfold iteratingLoop
  infer_instance

instance {p : Parse Tree} [Keeps Γ p] : Keeps Γ (withoutIn p) := by unfold withoutIn; infer_instance

instance : Keeps [] loopWord? := by unfold loopWord?; infer_instance

instance : Keeps [] forStatement := by unfold forStatement; infer_instance

instance {place : Place} {async : Bool} {ms : Modifiers} :
    Keeps [] (functionStatement place async ms) := by
  unfold functionStatement
  dsimp only
  infer_instance

instance {place : Place} {ds : Tree} {ms : Modifiers} [Pays Γ ds Γ'] :
    Uses Γ (classStatement place ds ms) Γ' := by
  refine .of_pays (a := ds) ?_
  unfold classStatement
  infer_instance

instance {ambient : Bool} : Keeps [] (typeAlias ambient) := by
  unfold typeAlias
  dsimp only
  infer_instance

instance : Keeps [] interfaceBase := by
  unfold interfaceBase
  refine .bind fun e => ?_
  split
  · exact .unwrap_pair inferInstance
  · infer_instance

instance {ambient : Bool} : Keeps [] (interfaceDeclaration ambient) := by
  unfold interfaceDeclaration
  dsimp only
  infer_instance

instance : Keeps [] enumMember := by
  unfold enumMember
  refine .step fun t => ?_
  dsimp only
  split
  · infer_instance
  · refine .step fun _ => .step fun t => ?_
    split <;> infer_instance
  · infer_instance

instance {const ambient : Bool} : Keeps [] (enumDeclaration const ambient) := by
  unfold enumDeclaration
  infer_instance

theorem weight_foldl_namespace (word : String) (ambient : Bool) (names : List Tree) : ∀ body : Tree,
    weight (names.foldl (fun body n => .node (.namespace word ambient) [n, body]) body) =
      weight names + weight body := by
  induction names with
  | nil => exact fun body => (Nat.zero_add _).symm
  | cons n names ih =>
    intro body
    rw [List.foldl_cons, ih, weight_node_pair, weight_cons]
    omega

instance {word : String} {ambient : Bool} : Keeps [] (namespaceBody word ambient) := by
  unfold namespaceBody
  refine .bind fun names => .bind fun block => keeps_pure (h := (⟨?_⟩ : Pays _ _ []))
  rw [weight_foldl_namespace]
  simp only [List.sum_cons, List.sum_nil]
  omega

instance {ambient : Bool} : Keeps [] (moduleDeclaration ambient) := by
  unfold moduleDeclaration
  refine @keeps_within _ _ _ _ _ _ (.step fun isGlobal => ?_)
  split
  · infer_instance
  refine .step fun word => .step fun t => ?_
  split
  · dsimp only
    infer_instance
  · infer_instance

instance : Keeps [] atTypeDeclaration.isString := by
  unfold atTypeDeclaration.isString
  refine .step fun t => ?_
  split <;> infer_instance

instance {n : Nat} : Keeps [] (atTypeDeclaration n) := by
  cases n with
  | zero => unfold atTypeDeclaration; infer_instance
  | succ n =>
    unfold atTypeDeclaration
    refine .step fun t => ?_
    split <;> infer_instance

instance : Keeps [] importReference := by unfold importReference; infer_instance

instance {typeOnly : Bool} {name : Tree} [Pays Γ name Γ'] : Uses Γ (importEquals typeOnly name) Γ' := by
  refine .of_pays (a := name) ?_
  unfold importEquals
  infer_instance

instance {ds : Tree} {place : Place} [Pays Γ ds Γ'] : Uses Γ (typeDeclaration ds place) Γ' := by
  refine .of_pays (a := ds) ?_
  unfold typeDeclaration
  refine .step fun ms => ?_
  dsimp only
  refine .step fun t => ?_
  split <;> infer_instance

/-! ### The module interface -/

instance : Keeps [] importAttributes := by
  unfold importAttributes
  refine .step fun modern => ?_
  extract_lets rest
  have hrest : ∀ word, Keeps [] (rest word) := by
    intro word
    cases word <;> dsimp only [rest] <;> infer_instance
  clear_value rest
  infer_instance

instance : Keeps [] specifierIsTyped := by unfold specifierIsTyped; infer_instance

instance : Keeps [] importSpecifier := by
  unfold importSpecifier
  refine .step fun typeOnly => ?_
  extract_lets rest
  have hrest : ∀ x, Keeps [] (rest x) := by
    intro x
    refine .step fun usable => .bind fun imported => .step fun renamed => ?_
    split
    · infer_instance
    · split <;> infer_instance
  clear_value rest
  infer_instance

instance : Keeps [] importSpecifiers := by unfold importSpecifiers; infer_instance

instance {typeOnly : Bool} {phase : Option String} {ss : List Tree} [Pays Γ ss Γ'] :
    Uses Γ (importDeclaration.finish typeOnly phase ss) Γ' := by
  refine .of_pays (a := ss) ?_
  unfold importDeclaration.finish
  infer_instance

instance {word : String} : Keeps [] (opensImport word) := by unfold opensImport; infer_instance

instance : Keeps [] importDeclaration := by
  unfold importDeclaration
  refine .step fun _ => .step fun t => ?_
  split
  · infer_instance
  refine .step fun typeOnly => ?_
  extract_lets afterPhase afterType
  have hafterPhase : ∀ phase, Keeps [] (afterPhase phase) := by
    intro phase
    dsimp only [afterPhase]
    infer_instance
  have hafterType : ∀ r, Keeps [] (afterType r) := by
    intro r
    dsimp only [afterType]
    clear_value afterPhase
    infer_instance
  clear_value afterType
  infer_instance

/-- A name of the module interface is no literal, so that it may be taken twice. -/
theorem weight_moduleName {rules : Rule → Step Tree} {s s' : State} {t : Tree}
    (h : moduleName rules s = some (t, s')) : weight t = 0 := by
  unfold moduleName at h
  obtain ⟨token, s₁, -, h⟩ := bind_eq_some.1 h
  split at h
  · obtain ⟨-, s₂, -, h⟩ := bind_eq_some.1 h
    obtain ⟨-, s₃, -, h⟩ := bind_eq_some.1 h
    have heq : some (Tree.quoted _, s₃) = some (t, s') := h
    cases heq
    rfl
  · obtain ⟨n, s₂, -, h⟩ := bind_eq_some.1 h
    have heq : some (Tree.name n, s₂) = some (t, s') := h
    cases heq
    rfl

instance : Keeps [] exportSpecifier := by
  unfold exportSpecifier
  refine .step fun typeOnly => ?_
  extract_lets rest
  have hrest : ∀ x, Keeps [] (rest x) := by
    intro x
    refine .step fun usable => .bind_light weight_moduleName fun name hname => ?_
    dsimp only
    infer_instance
  clear_value rest
  infer_instance

theorem weight_localReference (t : Tree) : weight (localReference t) = weight t := by
  cases t <;> rfl

/-- The specifiers of an export are made of two names each. -/
theorem weight_map_specifiers {g : Bool × Bool × Tree × Tree → Tree}
    (hg : ∀ x, weight (g x) = weight x.2.2.1 + weight x.2.2.2) (ss : List (Bool × Bool × Tree × Tree)) :
    weight (ss.map g) = weight ss := by
  induction ss with
  | nil => rfl
  | cons x ss ih =>
    have hx : weight x = 0 + (0 + (weight x.2.2.1 + weight x.2.2.2)) := rfl
    rw [List.map_cons, weight_cons, weight_cons, hg, ih]
    omega

instance {typeOnly : Bool} : Keeps [] (exportList typeOnly) := by
  unfold exportList
  refine .step fun _ => .bind_pair fun ss comma => .step fun _ => .step fun source => ?_
  have hforeign : ∀ Δ Δ' [Pays Δ ss Δ'], Pays Δ
      (ss.map fun x => Tree.node (.exportSpecifier x.1) [x.2.2.1, x.2.2.2]) Δ' := by
    intro Δ Δ' h
    refine ⟨?_⟩
    rw [weight_map_specifiers fun x => weight_node_pair _ _ _]
    exact h.pays
  have hlocal : ∀ Δ Δ' [Pays Δ ss Δ'], Pays Δ
      (ss.map fun x => Tree.node (.exportSpecifier x.1) [localReference x.2.2.1, x.2.2.2]) Δ' := by
    intro Δ Δ' h
    refine ⟨?_⟩
    rw [weight_map_specifiers fun x => by rw [weight_node_pair, weight_localReference]]
    exact h.pays
  dsimp only
  infer_instance

instance {typeOnly : Bool} : Keeps [] (exportAll typeOnly) := by
  unfold exportAll
  dsimp only
  infer_instance

instance {ds : Tree} [Pays Γ ds Γ'] : Uses Γ (exportDefault ds) Γ' := by
  refine .of_pays (a := ds) ?_
  unfold exportDefault
  dsimp only
  infer_instance

instance {d : Tree} [Pays Γ d Γ'] : Pays Γ (exported d) Γ' := by unfold exported; infer_instance

instance {ds : Tree} [Pays Γ ds Γ'] : Uses Γ (exportDeclaration ds) Γ' := by
  refine .of_pays (a := ds) ?_
  unfold exportDeclaration
  refine .step fun _ => .bind fun inner => .step fun _ => .step fun _ => ?_
  extract_lets ds'
  have hds : weight ds' ≤ weight inner + weight ds := by
    dsimp only [ds']
    split
    · exact Nat.le_add_left _ _
    · exact Nat.le_add_right _ _
  clear_value ds'
  refine Keeps.mono (Γ := [weight ds']) ?_ (by simpa using hds)
  dsimp only
  infer_instance

instance {w : String} {place : Place} : Keeps [] (wordStatement w place) := by
  unfold wordStatement
  split <;> infer_instance

instance {place : Place} : Keeps [] (decoratedStatement place) := by
  unfold decoratedStatement
  dsimp only
  infer_instance

instance {place : Place} : Keeps [] (statementBody place) := by
  unfold statementBody
  refine .step fun t => ?_
  split <;> infer_instance

end Parse

/-! ## All rules -/

/-- **Every rule reads each literal once** when the rules that it refers to do. -/
theorem Rule.keeps_body (r : Rule) : Parse.Keeps [r.cost] r.body := by
  cases r with
  | «class» expression ds ms => unfold Rule.body Rule.cost; infer_instance
  | _ => unfold Rule.body; infer_instance

theorem Rule.rulesThrifty_run (fuel : Nat) : RulesThrifty (Rule.run fuel) := by
  induction fuel with
  | zero =>
    intro _ _ _ _ _ h
    cases h
  | succ fuel ih =>
    intro r s hs a s' h
    have := r.keeps_body.keeps _ ih s hs a s' h
    simpa using this

end

/-! ## Programs -/

/-- **Every literal of a program stands at an offset of its own.** -/
theorem Program.nodup_offsets {text : String} {d : Dialect} {p : Program}
    (h : Program.parse? text d = some p) : (Tree.offsetsOf p.statements).Nodup := by
  refine List.nodup_iff_count_le_one.2 fun offset => ?_
  let _ : Marked := ⟨offset⟩
  unfold Program.parse? at h
  dsimp only at h
  split at h
  · cases h
  rename_i directives statements s hitems
  split at h
  · cases h
  cases h
  have hkeeps : Parse.Keeps [] Parse.programItems := by
    unfold Parse.programItems
    infer_instance
  have hstart : ∀ s bound, (State.start d s bound).Follows := by
    intro s bound
    have hnext := Source.follows_next (!d.module) s
    exact ⟨Nat.zero_le _, hnext.forward, hnext.string⟩
  obtain ⟨-, hle⟩ := hkeeps.keeps _ (Rule.rulesThrifty_run _) _ (hstart _ _) _ _ hitems
  have hahead : ∀ s : State, s.ahead ≤ 1 := by
    intro s
    unfold State.ahead
    split <;> omega
  have hone : Weighted.weight statements ≤ 1 := by
    have hpair : Weighted.weight (directives, statements) =
      Weighted.weight directives + Weighted.weight statements := rfl
    have := hahead (State.start d (splitHashbang text.toList).2 ((splitHashbang text.toList).2.rest.length + 2))
    rw [List.sum_nil] at hle
    omega
  exact Nat.le_trans (Nat.le_of_eq (weight_node .group statements)) hone

end Abridge
