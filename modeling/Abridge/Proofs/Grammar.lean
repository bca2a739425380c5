import Abridge.Proofs.Shape

/-!
# The grammar gives trees as they have to be

One fact for each function of the grammar, in its order.  A function that only puts together what others
give needs no argument: its fact is found by search.  Those that look at the current token, or at the form
of a tree, are split at that point first; the ones that build a form whose parts matter, or a literal, say
why it is right.
-/

set_option autoImplicit false
set_option synthInstance.maxSize 1000000000
set_option synthInstance.maxHeartbeats 200000

namespace Abridge

section

variable [Original]

namespace Parse

/-! ## Names and keys -/

instance : Yields atIdentifier := by
  unfold atIdentifier
  refine .bind fun t => ?_
  split <;> infer_instance

instance : Yields atAnyWord := by
  unfold atAnyWord
  refine .bind fun t => ?_
  split <;> infer_instance

instance : Yields anyWord := by
  unfold anyWord
  refine .bind fun t => ?_
  split <;> infer_instance

instance : Yields identifier := by
  unfold identifier
  refine .bind fun t => ?_
  split <;> infer_instance

instance : Yields bindingName := by unfold bindingName; infer_instance

instance : Yields referenceName := by unfold referenceName; infer_instance

instance : Yields propertyWord := by unfold propertyWord; infer_instance

instance : Yields quotedString := by
  unfold quotedString
  refine .bind fun t => ?_
  split <;> infer_instance

instance : Yields moduleName := by
  unfold moduleName
  refine .bind fun t => ?_
  split <;> infer_instance

instance : Yields atKey := by
  unfold atKey
  refine .bind fun t => ?_
  split <;> infer_instance

instance : Yields propertyNameBody := by
  unfold propertyNameBody
  refine ⟨.tokenAt fun start t ht => ?_⟩
  split
  · have := Fact.mk ht
    exact Yields.gives
  · have := Fact.mk ht
    exact Yields.gives
  all_goals exact Yields.gives

instance : Yields key := by
  unfold key
  refine .bind fun t => ?_
  have ht : Meets t.val := inferInstance
  split
  · rename_i e heq
    rw [heq] at ht
    have := ht.head
    infer_instance
  · infer_instance

instance : Yields memberKey := by
  unfold memberKey
  refine .bind fun t => ?_
  split <;> infer_instance

instance : Yields atModified := by
  unfold atModified
  refine .bind fun t => ?_
  split <;> infer_instance

instance {m : Modifiers} {w : String} : Yields (addModifier m w) := by
  unfold addModifier
  refine .bind fun _ => ?_
  split <;> infer_instance

instance {words : List String} {seen : Modifiers} : Yields (atModifier words seen) := by
  unfold atModifier
  refine .bind fun t => ?_
  split <;> infer_instance

instance {words : List String} : Yields (modifiers words) := by unfold modifiers; infer_instance

instance : Yields decorators := by unfold decorators; infer_instance

/-! ## Types -/

instance {conditional : Bool} : Yields (typeWith conditional) := by
  unfold typeWith
  infer_instance

instance : Yields annotation := by unfold annotation; infer_instance

instance : Yields returnAnnotation := by unfold returnAnnotation; infer_instance

instance : Yields typeArguments := by unfold typeArguments; infer_instance

instance : Yields typeArguments? := by unfold typeArguments?; infer_instance

instance : Yields typeParamModifiers := by unfold typeParamModifiers; infer_instance

instance : Yields typeParam := by unfold typeParam; dsimp only; infer_instance

instance : Yields typeParamsBody := by unfold typeParamsBody; infer_instance

instance : Yields skipParamStart := by unfold skipParamStart; infer_instance

instance : Yields opensParams := by unfold opensParams; infer_instance

instance : Yields atFunctionType := by unfold atFunctionType; infer_instance

instance {t : Tree} [h : Meets t] : Meets (splitParams t) := by
  unfold splitParams
  split
  · exact ⟨h.meets.2.1, h.meets.2.2.1⟩
  · infer_instance

instance : Yields functionType := by unfold functionType; dsimp only; infer_instance

/-- A dotted name that starts with no literal is none. -/
theorem gives_dotted {first : Tree} (hfirst : first.Read ∧ first.isLiteral = false) :
    (iterate first fun left => do
      if ← eat "." then return .inl (.node .qualified [left, ← propertyWord])
      else return .inr left : Parse Tree).Gives fun t => t.Read ∧ t.isLiteral = false := by
  refine .iterate (I := fun t => t.Read ∧ t.isLiteral = false) hfirst fun left hleft => ?_
  refine (Gives.any _).bind fun dot _ => ?_
  split
  · refine (inferInstance : Yields propertyWord).gives.bind fun n hn => .pure ⟨⟨?_, ?_⟩, rfl⟩
    · rintro t ht
      cases ht
      exact hleft.2
    · exact ⟨hleft.1, hn, trivial⟩
  · exact .pure hleft

theorem gives_typeName : typeName.Gives fun t => t.Read ∧ t.isLiteral = false := by
  have hreference : referenceName.Gives fun t => t.Read ∧ t.isLiteral = false :=
    (Gives.any _).bind fun n _ => .pure ⟨trivial, rfl⟩
  unfold typeName
  dsimp only
  refine (Gives.any _).bind fun this _ => ?_
  split
  · exact (Gives.pure ⟨⟨trivial, trivial⟩, rfl⟩).bind fun first => gives_dotted
  · exact hreference.bind fun first => gives_dotted

instance : Yields typeName := ⟨gives_typeName.mono fun _ h => h.1⟩

instance : Yields typeReference := by
  refine ⟨gives_typeName.bind fun n hn => ?_⟩
  refine (inferInstance : Yields typeArguments?).gives.bind fun args hargs => .pure ⟨?_, ?_⟩
  · rintro t ht
    cases ht
    exact hn.2
  · exact ⟨hn.1, hargs, trivial⟩

instance {hole : Parse Tree} [Yields hole] : Yields (templateParts hole) := by
  unfold templateParts
  refine @yields_iterate_triple _ _ _ _ _ _ _ _ _ _ _ _ fun pieces ok holes => ?_
  dsimp only
  refine .bind fun t => ?_
  split <;> infer_instance

instance : Yields templateType := by unfold templateType; infer_instance

instance : Yields atMappedType := by unfold atMappedType; infer_instance

instance {present : Parse Bool} [Yields present] : Yields (mappedModifier present) := by
  unfold mappedModifier
  infer_instance

instance : Yields mappedType := by unfold mappedType; dsimp only; infer_instance

instance : Yields tupleElement := by
  unfold tupleElement
  refine .bind fun labelled => .ite inferInstance ?_
  refine .bind fun spread => .ite inferInstance ?_
  refine .bind fun t => ?_
  have ht : Meets t.val := inferInstance
  split
  · rename_i u heq
    rw [heq] at ht
    have := ht.head
    infer_instance
  · infer_instance

instance : Yields tupleType := by unfold tupleType; infer_instance


instance : Yields importType := by
  have hword : propertyWord.Gives fun t => t.Read ∧ t.isLiteral = false :=
    (Gives.any _).bind fun n _ => .pure ⟨trivial, rfl⟩
  unfold importType
  refine .bind fun _ => .bind fun _ => .bind fun source => .bind fun comma => ?_
  extract_lets finish
  have hfinish : ∀ options : Met Tree, Yields (finish options.val) := by
    intro options
    refine .bind fun _ => .bind fun dot => ?_
    dsimp only
    split
    · refine ⟨hword.bind fun first hfirst => (gives_dotted hfirst).bind fun qualifier hqualifier => ?_⟩
      have : Meets qualifier := ⟨hqualifier.1⟩
      exact Yields.gives
    · infer_instance
  clear_value finish
  infer_instance

instance : Yields typeQuery := by
  unfold typeQuery
  dsimp only
  refine .bind fun _ => .bind fun imported => ?_
  split
  · refine .bind fun n => ?_
    split <;> infer_instance
  · refine .bind fun n => ?_
    split <;> infer_instance

instance : Yields negativeType := by
  unfold negativeType
  refine .bind fun _ => ⟨.tokenAt fun start t ht => ?_⟩
  split
  · have := Fact.mk ht
    exact Yields.gives
  all_goals exact Yields.gives

instance : Yields simpleType := by
  unfold simpleType
  refine .bind fun t => ?_
  split
  case h_6 =>
    refine .bind fun mapped => .ite inferInstance ?_
    refine .bind fun ms => ?_
    have hms : Meets ms.val := inferInstance
    split
    · rename_i members heq
      rw [heq] at hms
      have : Meets members := ⟨hms.meets.2⟩
      infer_instance
    · infer_instance
  all_goals infer_instance

instance : Yields atTypeStart := by
  unfold atTypeStart
  refine .bind fun t => ?_
  split <;> infer_instance

instance : Yields suffixedType := by unfold suffixedType; infer_instance

instance : Yields inferConstraint := by unfold inferConstraint; infer_instance

instance {t : Tree} [Meets t] {ws : List String} : Yields (applyOperators t ws) := by
  suffices h : ∀ (ws : List String) (t : Met Tree), Yields (applyOperators t.val ws) from
    h ws ⟨t, Meets.meets⟩
  intro ws
  induction ws with
  | nil => intro t; unfold applyOperators; infer_instance
  | cons w ws ih =>
    intro t
    unfold applyOperators
    exact .bind fun _ => ih ⟨.node (.operatorType w) [t.val], Meets.meets⟩

instance : Yields operatorType := by unfold operatorType; dsimp only; infer_instance

instance : Yields constituent := by unfold constituent; infer_instance

instance : Yields unionType := by unfold unionType joined; infer_instance

instance : Yields typeBody := by unfold typeBody; infer_instance

instance : Yields returnTypeBody := by unfold returnTypeBody; dsimp only; infer_instance

instance : Yields atIndexSignature := by unfold atIndexSignature; infer_instance

instance {static readonly : Bool} : Yields (indexSignature static readonly) := by
  unfold indexSignature
  infer_instance

instance : Yields signatureTail := by unfold signatureTail; dsimp only; infer_instance

instance : Yields typeMember := by unfold typeMember; dsimp only; infer_instance

instance : Yields endMember := by unfold endMember; infer_instance

instance : Yields typeMembersBody := by unfold typeMembersBody; infer_instance

/-! ## Patterns, parameters and targets -/

instance : Yields initialiser := by unfold initialiser; infer_instance

instance : Yields defaultedPattern := by unfold defaultedPattern; infer_instance

instance : Yields restPattern := by unfold restPattern; infer_instance

instance : Yields bindingProperty := by
  unfold bindingProperty
  refine .bind fun rest => .ite inferInstance ?_
  refine .bind fun named => .bind fun x => ?_
  obtain ⟨⟨k, computed⟩, hk, -⟩ := x
  have : Meets k := ⟨hk⟩
  refine .bind fun colon => ?_
  dsimp only
  split
  · rename_i n _ _ _
    have hplain : Fact (Form.Fits (.bindingProperty true computed) [.name n, .binding n]) :=
      ⟨n, _, rfl, rfl, fun _ h => (Option.some_inj.1 h).symm⟩
    have hdefaulted : ∀ t, Fact
        (Form.Fits (.bindingProperty true computed) [.name n, .node .defaulted [.binding n, t]]) :=
      fun t => ⟨n, _, rfl, rfl, fun _ h => (Option.some_inj.1 h).symm⟩
    simp only [pure_bind]
    infer_instance
  · infer_instance

instance : Yields objectPattern := by unfold objectPattern; infer_instance

instance {item : Parse Tree} [Yields item] : Yields (elements item) := by
  unfold elements
  infer_instance

instance : Yields arrayPattern := by unfold arrayPattern; infer_instance

instance : Yields patternBody := by unfold patternBody; infer_instance

instance : Yields param := by unfold param; dsimp only; infer_instance

instance : Yields paramsBody := by unfold paramsBody; dsimp only; infer_instance

theorem read_simpleTarget? {e t : Tree} (he : e.Read) (h : simpleTarget? e = some t) :
    t.Read := by
  fun_induction simpleTarget? e with
  | case1 => cases h
  | case2 => cases h
  | case3 e _ _ ih => exact ih he.2.1 h
  | case4 | case6 | case8 | case10 | case12 => cases h; exact he
  | case5 | case7 | case9 | case11 | case13 => cases h

mutual

theorem read_targetOf {defaults : Bool} {e t : Tree} (hs : e.Read)
    (h : targetOf defaults e = some t) : t.Read := by
  unfold targetOf at h
  split at h
  · split at h
    · cases h
      exact ⟨trivial, hs.2⟩
    · cases h
  · split at h
    · rename_i ts hts
      have := read_targetElements hs.2 hts
      split at h
      · cases h
      · cases h
        exact ⟨trivial, this⟩
    · cases h
  · split at h
    · rename_i ts hts
      have := read_targetProperties hs.2 hts
      split at h
      · cases h
      · cases h
        exact ⟨trivial, this⟩
    · cases h
  · exact read_simpleTarget? hs h
termination_by sizeOf e
decreasing_by
  all_goals subst_vars
  all_goals simp only [Tree.node.sizeOf_spec]
  all_goals omega

theorem read_targetElements {es ts : List Tree} (hs : Tree.AllRead es)
    (h : targetElements es = some ts) : Tree.AllRead ts := by
  unfold targetElements at h
  split at h
  · cases h
    trivial
  · obtain ⟨us, hus, rfl⟩ := Option.map_eq_some_iff.1 h
    exact ⟨trivial, read_targetElements hs.2 hus⟩
  · split at h
    · obtain ⟨t, ht, rfl⟩ := Option.map_eq_some_iff.1 h
      exact ⟨⟨trivial, read_targetOf hs.1.2.1 ht, trivial⟩, trivial⟩
    · cases h
  · split at h
    · rename_i t us ht hus
      cases h
      exact ⟨read_targetOf hs.1 ht, read_targetElements hs.2 hus⟩
    · cases h
termination_by sizeOf es
decreasing_by
  all_goals subst_vars
  all_goals simp only [Tree.node.sizeOf_spec, List.cons.sizeOf_spec]
  all_goals omega

theorem read_targetProperties {ps ts : List Tree} (hs : Tree.AllRead ps)
    (h : targetProperties ps = some ts) : Tree.AllRead ts := by
  unfold targetProperties at h
  split at h
  · cases h
    trivial
  · split at h
    · obtain ⟨t, ht, rfl⟩ := Option.map_eq_some_iff.1 h
      exact ⟨⟨trivial, read_targetOf hs.1.2.1 ht, trivial⟩, trivial⟩
    · cases h
  · rename_i info k v es
    obtain ⟨⟨hfits, hk, hv, -⟩, hes⟩ := hs
    extract_lets found at h
    split at h
    · rename_i t us ht hus
      cases h
      refine ⟨?_, read_targetProperties hes hus⟩
      unfold found at ht
      split at ht
      · rename_i hshort
        split at ht
        · cases ht
          exact hv
        · cases ht
          rw [Form.Fits, hshort] at hfits
          obtain ⟨n, w, heq, hliteral, -⟩ := hfits
          cases heq
          exact ⟨fun _ h => Option.some.inj h ▸ hliteral, hv, trivial, trivial⟩
      split at ht
      · cases ht
      · obtain ⟨u, hu, rfl⟩ := Option.map_eq_some_iff.1 ht
        exact ⟨trivial, hk, read_targetOf hv hu, trivial⟩
    · cases h
  · cases h
termination_by sizeOf ps
decreasing_by
  all_goals subst_vars
  all_goals simp only [Tree.node.sizeOf_spec, List.cons.sizeOf_spec]
  all_goals omega

end

instance {e : Tree} [he : Meets e] : Yields (target e) := by
  unfold target
  split
  · rename_i t ht
    have : Meets t := ⟨read_targetOf he.meets ht⟩
    infer_instance
  · infer_instance

instance {e : Tree} [he : Meets e] : Yields (placeTarget e) := by
  unfold placeTarget
  split
  · rename_i t ht
    have : Meets t := ⟨read_simpleTarget? he.meets ht⟩
    infer_instance
  · infer_instance

/-! ## Functions, classes and object literals -/

instance {async generator bodyRequired : Bool} :
    Yields (functionTail async generator bodyRequired) := by
  unfold functionTail
  dsimp only
  infer_instance

instance {expression async : Bool} {ms : Modifiers} {defaultExport : Bool} :
    Yields (functionBodyOf expression async ms defaultExport) := by
  unfold functionBodyOf
  dsimp only
  infer_instance

instance {async generator bodyRequired : Bool} :
    Yields (methodFunction async generator bodyRequired) := by
  unfold methodFunction
  infer_instance

instance {kind : PropertyKind} {f : Tree} : Yields (checkAccessor kind f) := by
  unfold checkAccessor
  split <;> infer_instance

instance {w : String} : Yields (atAccessor w) := by unfold atAccessor; infer_instance

instance {kind : PropertyKind} {async generator : Bool} :
    Yields (objectMethod kind async generator) := by
  unfold objectMethod
  infer_instance

instance : Yields objectProperty := by
  have hplain : ∀ n, Fact (Form.Fits (.property { shorthand := true }) [.name n, .reference n]) :=
    fun n => ⟨n, _, rfl, rfl, fun _ h => (Option.some_inj.1 h).symm⟩
  have hcover : ∀ n ps,
      Fact (Form.Fits (.property { shorthand := true }) [.name n, .node .coverDefault ps]) :=
    fun n ps => ⟨n, _, rfl, rfl, fun _ h => by cases h⟩
  have hhead : ∀ n init, Fact (Form.Fits .coverDefault [.reference n, init]) :=
    fun n init => ⟨fun _ h => Option.some.inj h ▸ rfl⟩
  unfold objectProperty
  refine .bind fun word => ?_
  extract_lets rest
  have hrest : ∀ async : Bool, Yields (rest async) := by
    intro async
    refine .bind fun spread => .ite inferInstance (.ite inferInstance ?_)
    refine .bind fun getter => .ite inferInstance ?_
    refine .bind fun setter => .ite inferInstance ?_
    refine .bind fun generator => .ite inferInstance ?_
    refine .bind fun named => .bind fun x => ?_
    obtain ⟨⟨k, computed⟩, hk, -⟩ := x
    have : Meets k := ⟨hk⟩
    refine .bind fun method => .ite inferInstance ?_
    refine .bind fun colon => ?_
    dsimp only
    simp only [pure_bind]
    split <;> infer_instance
  clear_value rest
  infer_instance

instance : Yields objectLiteral := by unfold objectLiteral; infer_instance

instance : Yields arrayLiteral := by unfold arrayLiteral; infer_instance

instance {ds k : Tree} [Meets ds] [Meets k] {kind : MethodKind} {generator : Bool}
    {info : MemberInfo} : Yields (classMethod ds k kind generator info) := by
  unfold classMethod
  cases kind <;> dsimp only <;> infer_instance

instance {ds k : Tree} [Meets ds] [Meets k] {info : MemberInfo} : Yields (classField ds k info) := by
  unfold classField
  dsimp only
  infer_instance

instance : Yields classMember.isPrivate := by
  unfold classMember.isPrivate
  refine .bind fun t => ?_
  split <;> infer_instance

instance : Yields classMember := by unfold classMember; dsimp only; infer_instance

instance : Yields classMembers := by unfold classMembers; infer_instance

instance : Yields heritageType := by unfold heritageType; infer_instance

instance {expression : Bool} {ds : Tree} [Meets ds] {ms : Modifiers} :
    Yields (classBodyOf expression ds ms) := by
  unfold classBodyOf
  refine .bind fun _ => .bind fun heritage => .bind fun named => ?_
  extract_lets info rest
  have hrest : ∀ n : Met Tree, Yields (rest n.val) := by
    intro n
    refine .bind fun tps => .bind fun derived => ?_
    extract_lets finish
    have hfinish : ∀ x : Met (Tree × Tree), Yields (finish x.val) := by
      intro x
      dsimp only [finish]
      infer_instance
    clear_value finish
    split
    · refine .bind fun e => ?_
      have he : Meets e.val := inferInstance
      split
      · rename_i base args heq
        rw [heq] at he
        have := he.head
        have := he.second
        infer_instance
      · dsimp only
        infer_instance
    · infer_instance
  clear_value rest
  infer_instance

/-! ## Markup -/

instance {p : String} : Yields (expectThenChild p) := by unfold expectThenChild; infer_instance

instance {p : String} {inside : Bool} : Yields (expectEnd p inside) := by
  unfold expectEnd
  infer_instance

instance : Yields markupWord := by
  unfold markupWord
  refine .bind fun _ => .bind fun _ => .bind fun _ => .bind fun t => ?_
  split <;> infer_instance

instance {w : String} : Meets (tagObject w) := by unfold tagObject; infer_instance

instance : Yields tagName := by unfold tagName; infer_instance

instance : Yields containerExpression := by unfold containerExpression; infer_instance

instance : Yields attributeValue := by
  unfold attributeValue
  refine .bind fun t => ?_
  split <;> infer_instance

instance : Yields markupAttribute := by unfold markupAttribute; dsimp only; infer_instance

instance : Yields child := by
  unfold child
  refine .bind fun t => ?_
  split <;> infer_instance

instance : Yields children := by unfold children; infer_instance

instance {inside : Bool} : Yields (markupBody inside) := by
  unfold markupBody
  dsimp only
  infer_instance

instance : Yields markupExpression := by unfold markupExpression; infer_instance

/-! ## Expressions -/

instance : Yields templateLiteral := by unfold templateLiteral; infer_instance

instance {tag args : Tree} [Meets tag] [Meets args] : Yields (taggedTemplate tag args) := by
  unfold taggedTemplate
  infer_instance

instance : Yields parenthesised := by
  unfold parenthesised
  refine .bind fun _ => .bind fun x => .bind fun _ => ?_
  have hx : Meets x.val := inferInstance
  refine .bind fun _ => ?_
  split
  · infer_instance
  · rename_i e heq
    have : Meets e := ⟨(heq ▸ hx.meets.1 : Tree.AllRead [e]).1⟩
    infer_instance
  · infer_instance

instance : Yields arguments := by unfold arguments; infer_instance

instance {phase : Option String} : Yields (importCall phase) := by
  unfold importCall
  dsimp only
  infer_instance

instance : Yields importExpression := by
  unfold importExpression
  refine .bind fun _ => .bind fun dot => ?_
  split
  · refine .bind fun t => ?_
    split <;> infer_instance
  · infer_instance

instance : Yields regexLiteral := by
  unfold regexLiteral
  refine .bind fun _ => .bind fun t => ?_
  split <;> infer_instance

instance : Yields identifierExpression := by unfold identifierExpression; infer_instance

instance : Yields atAsyncFunction := by unfold atAsyncFunction; infer_instance

instance {w : String} : Yields (wordExpression w) := by
  unfold wordExpression
  split <;> infer_instance

instance : Yields primary := by
  unfold primary
  refine ⟨.tokenAt fun start t ht => ?_⟩
  split
  · have := Fact.mk ht
    exact Yields.gives
  · have := Fact.mk ht
    exact Yields.gives
  all_goals exact Yields.gives

instance {object : Tree} [Meets object] {optional : Bool} :
    Yields (memberAfterDot object optional) := by
  unfold memberAfterDot
  refine .bind fun t => ?_
  split <;> infer_instance

instance {object : Tree} [Meets object] {optional : Bool} :
    Yields (memberInBrackets object optional) := by
  unfold memberInBrackets
  infer_instance

instance : Yields atExpressionStart := by
  unfold atExpressionStart
  refine .bind fun t => ?_
  split <;> infer_instance

instance : Yields atBinaryOperator := by
  unfold atBinaryOperator
  refine .bind fun t => ?_
  split <;> infer_instance

instance : Yields followsTypeArguments := by
  unfold followsTypeArguments
  refine .bind fun t => ?_
  split <;> infer_instance

instance : Yields expressionTypeArguments := by unfold expressionTypeArguments; infer_instance

instance : Yields memberRest.isTemplate := by
  unfold memberRest.isTemplate
  refine .bind fun t => ?_
  split <;> infer_instance

instance {object : Tree} [Meets object] {chain links : Bool} :
    Yields (memberRest object chain links) := by
  unfold memberRest
  refine .iterate fun x => ?_
  obtain ⟨⟨e, chain⟩, he, -⟩ := x
  have hmeets : Meets e := ⟨he⟩
  dsimp only
  refine .bind fun t => ?_
  split
  case h_5 =>
    refine .bind fun _ => ?_
    split
    · have := hmeets.head
      have := hmeets.second
      infer_instance
    · infer_instance
  all_goals infer_instance

instance {e : Tree} [he : Meets e] : Meets (splitInstantiation e) := by
  unfold splitInstantiation
  split
  · exact ⟨he.meets.2.1, he.meets.2.2.1⟩
  · infer_instance

instance {object : Tree} [Meets object] : Yields (callRest object) := by
  unfold callRest
  refine .iterate fun x => ?_
  obtain ⟨⟨e, chain⟩, he, -⟩ := x
  have : Meets e := ⟨he⟩
  dsimp only
  refine .bind fun y => .bind fun link => ?_
  split
  · refine .bind fun _ => .bind fun args => .bind fun t => ?_
    split <;> infer_instance
  · infer_instance

theorem read_asChain {e : Tree} (he : e.Read) : (asChain e).Read := by
  fun_induction asChain e with
  | case1 e args ih => exact ⟨trivial, ih he.2.1, he.2.2⟩
  | case7 => exact he
  | _ => exact ⟨trivial, he, trivial⟩

instance {e : Tree} [he : Meets e] : Meets (asChain e) := ⟨read_asChain he.meets⟩

instance {target : Parse Tree} [Yields target] : Yields (newExpression target) := by
  unfold newExpression
  refine .bind fun _ => .bind fun dot => .ite inferInstance ?_
  refine .bind fun first => .bind fun x => ?_
  dsimp only
  refine .bind fun open' => ?_
  split
  · refine .bind fun vs => ?_
    split <;> infer_instance
  · refine .bind fun _ => .bind fun _ => .bind fun vs => ?_
    split <;> infer_instance

instance {n : Nat} : Yields (primaryOrNew n) := by
  induction n with
  | zero => unfold primaryOrNew; infer_instance
  | succ n ih => unfold primaryOrNew; infer_instance

instance : Yields leftHandSideBody := by unfold leftHandSideBody; dsimp only; infer_instance

instance : Yields updateExpression := by unfold updateExpression; infer_instance

instance : Yields typeAssertion := by unfold typeAssertion; infer_instance

instance : Yields atAwait.operandFollows := by
  unfold atAwait.operandFollows
  refine .bind fun t => ?_
  split <;> infer_instance

instance : Yields atAwait := by unfold atAwait; infer_instance

instance : Yields unaryBody := by
  unfold unaryBody
  refine .bind fun t => ?_
  split <;> infer_instance

instance {n : String} {args : Tree} : Fact (Form.Fits .typeRef [.reference n, args]) :=
  ⟨fun t ht => by cases ht; rfl⟩

instance : Yields binaryOp? := by
  unfold binaryOp?
  refine .bind fun _ => .bind fun t => ?_
  split <;> infer_instance

instance {left : Tree} [Meets left] {level : Nat} : Yields (binaryRest left level) := by
  have hasserted : ∀ (satisfies : Bool) (t u : Met Tree),
      Meets (Tree.node (if satisfies then .satisfies else .as) [t.val, u.val]) := by
    intro satisfies t u
    split <;> infer_instance
  unfold binaryRest
  dsimp only
  infer_instance

instance {level : Nat} : Yields (binaryBody level) := by
  unfold binaryBody
  refine .bind fun t => ?_
  split <;> infer_instance

instance : Yields parenHint := by
  unfold parenHint
  dsimp only
  refine .bind fun empty => .ite inferInstance ?_
  refine .bind fun pattern => .ite inferInstance ?_
  refine .bind fun spread => .ite inferInstance ?_
  refine .bind fun decorated => .ite inferInstance ?_
  refine .bind fun t => ?_
  split <;> infer_instance

instance : Yields angleHint := by unfold angleHint; infer_instance

instance : Yields arrowHint := by unfold arrowHint; dsimp only; infer_instance

instance : Expectation ArrowHead :=
  ⟨fun head => head.typeParams.Read ∧ head.params.Read ∧ head.returnType.Read⟩

instance {async : Bool} {tps ps ret : Tree} [htps : Meets tps] [hps : Meets ps] [hret : Meets ret] :
    Meets (⟨async, tps, ps, ret⟩ : ArrowHead) :=
  ⟨htps.meets, hps.meets, hret.meets⟩

instance : Yields arrowHead := by unfold arrowHead; dsimp only; infer_instance

instance {head : ArrowHead} [hhead : Meets head] {returnType : Bool} :
    Yields (arrowBody head returnType) := by
  have : Meets head.typeParams := ⟨hhead.meets.1⟩
  have : Meets head.params := ⟨hhead.meets.2.1⟩
  have : Meets head.returnType := ⟨hhead.meets.2.2⟩
  unfold arrowBody
  dsimp only
  infer_instance

instance {returnType : Bool} : Yields (possibleArrow returnType) := by
  unfold possibleArrow
  infer_instance

instance {name : String} {async returnType : Bool} : Yields (bareArrow name async returnType) := by
  unfold bareArrow
  dsimp only
  infer_instance

instance : Yields atAsyncBareArrow := by unfold atAsyncBareArrow; infer_instance

instance : Yields atYield := by unfold atYield; infer_instance

instance : Yields yieldExpression := by unfold yieldExpression; dsimp only; infer_instance

instance {returnType : Bool} : Yields (operatorExpression returnType) := by
  unfold operatorExpression
  refine .bind fun left => .bind fun t => ?_
  split
  · infer_instance
  · split
    · dsimp only
      infer_instance
    · infer_instance
  · infer_instance

instance {returnType : Bool} : Yields (assignmentBody returnType) := by
  unfold assignmentBody
  refine .bind fun yields => .ite inferInstance ?_
  refine .bind fun hint => ?_
  dsimp only
  split <;> infer_instance

instance : Yields expressionBody := by unfold expressionBody; infer_instance

/-! ## Statements -/

instance {atEnd : Parse Bool} [Yields atEnd] : Yields (bodyItems atEnd) := by
  unfold bodyItems
  refine .iterate fun x => ?_
  obtain ⟨⟨ds, ss, head⟩, -, hss, -⟩ := x
  have : Meets ss := ⟨hss⟩
  dsimp only
  refine .bind fun ends => .ite inferInstance ?_
  refine .bind fun first => .bind fun s => ?_
  split <;> infer_instance

instance : Yields atBlockEnd := by unfold atBlockEnd; infer_instance

instance : Yields bracedStatements := by unfold bracedStatements; infer_instance

instance : Yields blockBody := by unfold blockBody; infer_instance

instance {ds : List String} : Meets (ds.map fun d => Tree.node (.directive d) []) := by
  refine ⟨Tree.allRead_iff.2 fun t ht => ?_⟩
  obtain ⟨d, -, rfl⟩ := List.mem_map.1 ht
  exact ⟨trivial, trivial⟩

instance : Yields functionBodyBody := by unfold functionBodyBody; dsimp only; infer_instance

instance : Yields moduleBlockBody := by unfold moduleBlockBody; infer_instance

instance {word : VarWord} {ambient loose : Bool} : Yields (declarator word ambient loose) := by
  unfold declarator
  dsimp only
  infer_instance

instance {word : VarWord} {ambient loose : Bool} : Yields (declarators word ambient loose) := by
  unfold declarators
  infer_instance

instance {word : VarWord} {place : Place} {ambient : Bool} :
    Yields (variableStatement word place ambient) := by
  unfold variableStatement
  infer_instance

instance {e : Tree} [Meets e] : Yields (expressionStatement e) := by
  unfold expressionStatement
  infer_instance

instance : Yields expressionOrLabelled := by
  unfold expressionOrLabelled
  refine .bind fun e => .bind fun colon => ?_
  split <;> infer_instance

instance : Yields condition := by unfold condition; infer_instance

instance {place : Place} : Yields (letUse place) := by
  unfold letUse
  refine .bind fun next => ?_
  split <;> infer_instance

instance {place : Place} : Yields (letStatement place) := by
  unfold letStatement
  refine .bind fun use => ?_
  split <;> infer_instance

instance : Yields (jump .break) := by unfold jump; dsimp only; infer_instance

instance : Yields (jump .continue) := by unfold jump; dsimp only; infer_instance

instance : Yields returnStatement := by unfold returnStatement; dsimp only; infer_instance

instance : Yields throwStatement := by unfold throwStatement; infer_instance

instance : Yields ifStatement := by unfold ifStatement; dsimp only; infer_instance

instance : Yields whileStatement := by unfold whileStatement; infer_instance

instance : Yields doStatement := by unfold doStatement; infer_instance

instance : Yields withStatement := by unfold withStatement; infer_instance

instance : Yields caseClause := by unfold caseClause; dsimp only; infer_instance

instance : Yields switchStatement := by unfold switchStatement; infer_instance

instance : Yields tryStatement := by unfold tryStatement; dsimp only; infer_instance

instance {init : Tree} [Meets init] {isAwait : Bool} : Yields (countingLoop init isAwait) := by
  unfold countingLoop
  dsimp only
  infer_instance

instance {left : Tree} [Meets left] {isAwait : Bool} : Yields (iteratingLoop left isAwait) := by
  unfold iteratingLoop
  infer_instance

instance {p : Parse Tree} [Yields p] : Yields (withoutIn p) := by unfold withoutIn; infer_instance

instance : Yields loopWord? := by
  have hdeclares : Yields (do
      match ← token with
      | .word w false => return w != "in"
      | .word _ true => return true
      | .punct p => return p == "[" || p == "\x7b"
      | _ => return false) := by
    refine .bind fun t => ?_
    split <;> infer_instance
  unfold loopWord?
  infer_instance

instance : Yields forStatement := by unfold forStatement; infer_instance

instance {place : Place} {async : Bool} {ms : Modifiers} :
    Yields (functionStatement place async ms) := by
  unfold functionStatement
  dsimp only
  infer_instance

instance {place : Place} {ds : Tree} [Meets ds] {ms : Modifiers} :
    Yields (classStatement place ds ms) := by
  unfold classStatement
  infer_instance

instance {ambient : Bool} : Yields (typeAlias ambient) := by
  unfold typeAlias
  dsimp only
  infer_instance

instance : Yields interfaceBase := by
  unfold interfaceBase
  refine .bind fun e => ?_
  have he : Meets e.val := inferInstance
  split
  · rename_i base args heq
    rw [heq] at he
    have := he.head
    have := he.second
    infer_instance
  · infer_instance

instance {ambient : Bool} : Yields (interfaceDeclaration ambient) := by
  unfold interfaceDeclaration
  dsimp only
  infer_instance

instance : Yields enumMember := by
  unfold enumMember
  refine .bind fun t => ?_
  extract_lets rest bracket
  have hplain : ∀ (k : Tree) [Meets k], Yields (rest (k, false)) := by
    intro k _
    dsimp only [rest]
    infer_instance
  have hbracket : ∀ k : Met Tree, (∀ n, k.val ≠ .name n) → Yields (bracket k.val) := by
    intro k hk
    have hfits : ∀ init : Tree, Fact (Form.Fits (.enumMember true) [k.val, init]) :=
      fun init => ⟨fun n hn => hk n (Option.some_inj.1 hn)⟩
    dsimp only [bracket, rest]
    simp only [pure_bind]
    infer_instance
  have hquoted : ∀ lit, Yields (bracket (.quoted lit)) :=
    fun lit => hbracket ⟨.quoted lit, trivial⟩ (by simp)
  have htemplate : ∀ raw, Yields (bracket (.node (.template [raw]) [])) :=
    fun raw => hbracket ⟨.node (.template [raw]) [], trivial, trivial⟩ (by simp)
  clear_value bracket rest
  simp only [pure_bind]
  split
  · infer_instance
  · refine .bind fun _ => .bind fun t => ?_
    split
    · infer_instance
    · infer_instance
    · exact ⟨Gives.fail.bind (Q := fun _ => False) fun _ h => h.elim⟩
  · infer_instance

instance {const ambient : Bool} : Yields (enumDeclaration const ambient) := by
  unfold enumDeclaration
  infer_instance

instance {word : String} {ambient : Bool} : Yields (namespaceBody word ambient) := by
  have hfold : ∀ (names : List Tree) (body : Tree), Tree.AllRead names → body.Read →
      (names.foldl (fun body n => .node (.namespace word ambient) [n, body]) body).Read := by
    intro names
    induction names with
    | nil => exact fun body _ hbody => hbody
    | cons n names ih =>
      exact fun body hnames hbody => ih _ hnames.2 ⟨trivial, hnames.1, hbody, trivial⟩
  unfold namespaceBody
  refine .bind fun names => .bind fun block => ?_
  have : Meets (names.val.foldl (fun body n => .node (.namespace word ambient) [n, body]) block.val) :=
    ⟨hfold _ _ names.property block.property⟩
  infer_instance

instance {ambient : Bool} : Yields (moduleDeclaration ambient) := by
  unfold moduleDeclaration
  refine @yields_within _ _ _ _ _ (.bind fun isGlobal => ?_)
  split
  · infer_instance
  refine .bind fun word => .bind fun t => ?_
  split
  · dsimp only
    infer_instance
  · infer_instance

instance : Yields atTypeDeclaration.isString := by
  unfold atTypeDeclaration.isString
  refine .bind fun t => ?_
  split <;> infer_instance

instance yields_atTypeDeclaration : ∀ {n : Nat}, Yields (atTypeDeclaration n)
  | 0 => by unfold atTypeDeclaration; infer_instance
  | n + 1 => by
    have := yields_atTypeDeclaration (n := n)
    unfold atTypeDeclaration
    refine .bind fun t => ?_
    split <;> infer_instance

/-- A word or a text of the module interface, which names no binding. -/
structure IsBare (t : Tree) : Prop where
  read : t.Read
  leafNames : t.leafNames = []
  isClause : t.isClause = true

theorem gives_quotedString : quotedString.Gives IsBare := by
  unfold quotedString
  refine (Gives.any _).bind fun t _ => ?_
  split
  · exact (Gives.any _).bind fun _ _ => .pure ⟨trivial, rfl, rfl⟩
  · exact .fail

instance : Yields importReference := by
  unfold importReference
  refine .bind fun named => .bind fun called => ?_
  split
  · refine ⟨(Gives.any _).bind fun _ _ => (Gives.any _).bind fun _ _ => ?_⟩
    refine gives_quotedString.bind fun source hsource => (Gives.any _).bind fun _ _ => .pure ?_
    exact ⟨Tree.allClauses_iff.2 (List.forall_mem_singleton.2 hsource.isClause), hsource.read, trivial⟩
  · infer_instance

instance {typeOnly : Bool} {name : Tree} [Meets name] : Yields (importEquals typeOnly name) := by
  unfold importEquals
  infer_instance

instance {ds : Tree} [Meets ds] {place : Place} : Yields (typeDeclaration ds place) := by
  unfold typeDeclaration
  refine .bind fun ms => ?_
  dsimp only
  refine .bind fun t => ?_
  split <;> infer_instance

/-! ### The module interface -/

theorem gives_bindingName : bindingName.Gives fun t => ∃ n, t = .binding n :=
  (Gives.any _).bind fun n _ => .pure ⟨n, rfl⟩

theorem gives_moduleName : moduleName.Gives IsBare := by
  unfold moduleName
  refine (Gives.any _).bind fun t _ => ?_
  split
  · exact (Gives.any _).bind fun _ _ => (Gives.any _).bind fun _ _ => .pure ⟨trivial, rfl, rfl⟩
  · exact (Gives.any _).bind fun n _ => .pure ⟨trivial, rfl, rfl⟩

instance : Yields specifierIsTyped := by unfold specifierIsTyped; infer_instance

/-- A specifier of an import has no names but the ones that it introduces. -/
structure IsSpecifier (t : Tree) : Prop where
  read : t.Read
  introduces : ∀ n ∈ t.leafNames, n ∈ (Tree.importedName false t).map Prod.fst
  isClause : t.isClause = true

theorem isSpecifier_importDefault (n : String) : IsSpecifier (.node .importDefault [.binding n]) :=
  ⟨⟨trivial, trivial, trivial⟩, by
    simp [Tree.leafNames, Tree.leafNamesOf, Tree.importedName, Tree.withNature, Tree.boundNames], rfl⟩

theorem isSpecifier_importAll (n : String) : IsSpecifier (.node .importAll [.binding n]) :=
  ⟨⟨trivial, trivial, trivial⟩, by
    simp [Tree.leafNames, Tree.leafNamesOf, Tree.importedName, Tree.withNature, Tree.boundNames], rfl⟩

theorem isSpecifier_importNamed {typeOnly : Bool} {imported : Tree} (h : IsBare imported) (n : String) :
    IsSpecifier (.node (.importNamed typeOnly) [imported, .binding n]) where
  read := ⟨trivial, h.read, trivial, trivial⟩
  introduces := by
    simp [Tree.leafNames, Tree.leafNamesOf, Tree.importedName, Tree.withNature, Tree.boundNames,
      h.leafNames]
  isClause := by simp [Tree.isClause, Tree.allClauses, Tree.isClauseForm, h.isClause]

theorem gives_importSpecifier : importSpecifier.Gives IsSpecifier := by
  unfold importSpecifier
  refine (Gives.any _).bind fun typeOnly _ => ?_
  extract_lets rest
  have hrest : ∀ x, (rest x).Gives IsSpecifier := by
    intro x
    refine (Gives.any _).bind fun usable _ => ?_
    refine gives_moduleName.bind fun imported himported => (Gives.any _).bind fun renamed _ => ?_
    split
    · refine gives_bindingName.bind fun t ht => .pure ?_
      obtain ⟨n, rfl⟩ := ht
      exact isSpecifier_importNamed himported n
    split
    · refine (Gives.any _).bind fun _ _ => (Gives.any _).bind fun _ _ => (Gives.any _).bind
        fun _ _ => .pure ?_
      exact isSpecifier_importNamed himported _
    · exact .fail
  split
  · exact (Gives.any _).bind fun x _ => hrest x
  · exact hrest ()

theorem gives_importSpecifiers : importSpecifiers.Gives fun ss => ∀ t ∈ ss, IsSpecifier t := by
  unfold importSpecifiers
  refine (Gives.any _).bind fun star _ => ?_
  split
  · refine (Gives.any _).bind fun _ _ => gives_bindingName.bind fun t ht => .pure ?_
    obtain ⟨n, rfl⟩ := ht
    exact List.forall_mem_singleton.2 (isSpecifier_importAll n)
  · refine (Gives.any _).bind fun _ _ => (gives_importSpecifier.separated _).bind fun x hx => ?_
    exact (Gives.any _).bind fun _ _ => .pure hx

theorem isBare_attributeEntry {k v : Tree} (hk : IsBare k) (hv : IsBare v) :
    IsBare (.node .attributeEntry [k, v]) where
  read := ⟨trivial, hk.read, hv.read, trivial⟩
  leafNames := by simp [Tree.leafNames, Tree.leafNamesOf, hk.leafNames, hv.leafNames]
  isClause := by simp [Tree.isClause, Tree.allClauses, Tree.isClauseForm, hk.isClause, hv.isClause]

theorem isBare_attributes {w : String} {es : List Tree} (hes : ∀ e ∈ es, IsBare e) :
    IsBare (.node (.attributes w) es) where
  read := ⟨trivial, Tree.allRead_iff.2 fun e he => (hes e he).read⟩
  leafNames := by
    refine List.eq_nil_iff_forall_not_mem.2 fun n hn => ?_
    obtain ⟨e, he, hn⟩ := Tree.mem_leafNamesOf.1 hn
    rw [(hes e he).leafNames] at hn
    exact List.not_mem_nil hn
  isClause := Bool.and_eq_true_iff.2 ⟨rfl, Tree.allClauses_iff.2 fun e he => (hes e he).isClause⟩

theorem gives_importAttributes : importAttributes.Gives IsBare := by
  unfold importAttributes
  refine (Gives.any _).bind fun modern _ => ?_
  extract_lets rest
  have hrest : ∀ word, (rest word).Gives IsBare := by
    intro word
    cases word with
    | none => exact .pure ⟨trivial, rfl, rfl⟩
    | some w =>
      refine (Gives.any _).bind fun _ _ => (Gives.any _).bind fun _ _ => ?_
      refine (Gives.separated (Q := IsBare) ?_ _).bind fun x hx => ?_
      · refine gives_moduleName.bind fun k hk => (Gives.any _).bind fun _ _ => ?_
        exact gives_quotedString.bind fun v hv => .pure (isBare_attributeEntry hk hv)
      · exact (Gives.any _).bind fun _ _ => .pure (isBare_attributes hx)
  refine (Gives.any _).bind fun old _ => (Gives.any _).bind fun newLine _ => ?_
  split
  · exact (Gives.any _).bind fun word _ => hrest word
  split
  · exact (Gives.any _).bind fun word _ => hrest word
  · exact (Gives.any _).bind fun word _ => hrest word

instance : Yields importAttributes := ⟨gives_importAttributes.mono fun _ h => h.read⟩

theorem read_import {typeOnly : Bool} {phase : Option String} {ss : List Tree} {source attrs : Tree}
    (hss : ∀ t ∈ ss, IsSpecifier t) (hsource : IsBare source) (hattrs : IsBare attrs) :
    (Tree.node (.import typeOnly phase) [.group ss, source, attrs]).Read := by
  refine ⟨⟨fun n hn => ?_, ?_⟩, ⟨trivial, Tree.allRead_iff.2 fun t ht => (hss t ht).read⟩, hsource.read,
    hattrs.read, trivial⟩
  · have hn' : n ∈ Tree.leafNamesOf ss := by
      simpa [Tree.leafNamesOf, Tree.leafNames, Tree.group, hsource.leafNames, hattrs.leafNames] using hn
    obtain ⟨t, ht, hn⟩ := Tree.mem_leafNamesOf.1 hn'
    obtain ⟨d, hd, rfl⟩ := List.mem_map.1 ((hss t ht).introduces n hn)
    exact List.mem_map_of_mem (f := Prod.fst) (List.mem_flatMap.2 ⟨t, ht, hd⟩)
  · have hclauses : Tree.allClauses ss = true := Tree.allClauses_iff.2 fun t ht => (hss t ht).isClause
    simp [Tree.group, Tree.allClauses, Tree.isClause, Tree.isClauseForm, hclauses, hsource.isClause,
      hattrs.isClause]

theorem gives_finish {typeOnly : Bool} {phase : Option String} {ss : List Tree}
    (hss : ∀ t ∈ ss, IsSpecifier t) : (importDeclaration.finish typeOnly phase ss).Gives Tree.Read := by
  unfold importDeclaration.finish
  refine (Gives.any _).bind fun _ _ => gives_quotedString.bind fun source hsource => ?_
  refine gives_importAttributes.bind fun attrs hattrs => (Gives.any _).bind fun _ _ => ?_
  exact .pure (read_import hss hsource hattrs)

instance {word : String} : Yields (opensImport word) := by unfold opensImport; infer_instance

instance : Yields importDeclaration := by
  have hname : (some <$> bindingName).Gives fun x => ∀ t, x = some t → ∃ n, t = .binding n := by
    have h : (bindingName >>= fun t => pure (some t)).Gives fun x => ∀ t, x = some t → ∃ n, t = .binding n :=
      gives_bindingName.bind fun t ht => .pure fun u hu => Option.some_inj.1 hu ▸ ht
    exact h
  unfold importDeclaration
  refine .bind fun _ => .bind fun t => ?_
  split
  · refine ⟨?_⟩
    refine gives_quotedString.bind fun source hs => ?_
    refine gives_importAttributes.bind fun attrs ha => (Gives.any _).bind fun _ _ => .pure ?_
    refine ⟨⟨fun n hn => ?_, ?_⟩, trivial, hs.read, ha.read, trivial⟩
    · simp [Tree.leafNamesOf, Tree.leafNames, hs.leafNames, ha.leafNames] at hn
    · simp [Tree.allClauses, Tree.isClause, hs.isClause, ha.isClause]
  refine .bind fun typeOnly => ?_
  extract_lets afterPhase afterType
  have hafterPhase : ∀ phase, Yields (afterPhase phase) := by
    intro phase
    unfold afterPhase
    extract_lets rest specifiers
    have hrest : ∀ first : Option Tree, (∀ t, first = some t → ∃ n, t = .binding n) →
        (rest first).Gives Tree.Read := by
      intro first hfirst
      cases first with
      | none => exact gives_importSpecifiers.bind fun ss hss => gives_finish hss
      | some t =>
        obtain ⟨n, rfl⟩ := hfirst t rfl
        have hdefault := isSpecifier_importDefault n
        refine (Gives.any _).bind fun _ _ => (Gives.any _).bind fun _ _ => ?_
        split
        · exact Yields.gives
        refine (Gives.any _).bind fun comma _ => ?_
        dsimp only
        split
        · exact gives_importSpecifiers.bind fun ss hss =>
            gives_finish (List.forall_mem_cons.2 ⟨hdefault, hss⟩)
        · exact (Gives.pure (Q := fun ss => ss = []) rfl).bind fun ss hss =>
            gives_finish (List.forall_mem_cons.2 ⟨hdefault, by simp [hss]⟩)
    have hspecifiers : ∀ r, Yields (specifiers r) := by
      intro r
      refine .bind fun named => ?_
      split
      · exact ⟨hname.bind fun first hfirst => hrest first hfirst⟩
      · exact ⟨(Gives.pure (Q := fun x => x = none) rfl).bind fun first hfirst =>
          hrest first (by simp [hfirst])⟩
    clear_value specifiers
    infer_instance
  have hafterType : ∀ r, Yields (afterType r) := by
    intro r
    dsimp only [afterType]
    clear_value afterPhase
    infer_instance
  clear_value afterType
  infer_instance

/-- The names of an export specifier, before it is known whether they are local. -/
theorem gives_exportSpecifier :
    exportSpecifier.Gives fun x => IsBare x.2.2.1 ∧ IsBare x.2.2.2 := by
  unfold exportSpecifier
  refine (Gives.any _).bind fun typeOnly _ => ?_
  extract_lets rest
  have hrest : ∀ r, (rest r).Gives fun x => IsBare x.2.2.1 ∧ IsBare x.2.2.2 := by
    intro r
    refine (Gives.any _).bind fun usable _ => gives_moduleName.bind fun l hl => ?_
    refine (Gives.any _).bind fun as _ => ?_
    dsimp only
    split
    · exact gives_moduleName.bind fun e he => .pure ⟨hl, he⟩
    · exact (Gives.pure (Q := fun e => e = l) rfl).bind fun e he => .pure ⟨hl, he ▸ hl⟩
  split
  · exact (Gives.any _).bind fun r _ => hrest r
  · exact hrest ()

theorem read_exportSpecifier {ty : Bool} {l e : Tree} (hl : l.Read) (he : IsBare e)
    (hlocal : ∀ n ∈ l.leafNames, n ∈ l.exportedLocal) (hclause : l.isClause = true) :
    (Tree.node (.exportSpecifier ty) [l, e]).Read :=
  ⟨⟨l, e, rfl, hlocal, he.leafNames, by simp [Tree.allClauses, hclause, he.isClause]⟩, hl, he.read, trivial⟩

theorem read_exportSpecifier_of_isBare {ty : Bool} {l e : Tree} (hl : IsBare l) (he : IsBare e) :
    (Tree.node (.exportSpecifier ty) [l, e]).Read :=
  read_exportSpecifier hl.read he (fun n hn => absurd (hl.leafNames ▸ hn : n ∈ []) List.not_mem_nil)
    hl.isClause

theorem read_exportSpecifier_localReference {ty : Bool} {l e : Tree} (hl : IsBare l) (he : IsBare e) :
    (Tree.node (.exportSpecifier ty) [localReference l, e]).Read := by
  cases l with
  | name m =>
    exact read_exportSpecifier trivial he
      (by simp [localReference, Tree.leafNames, Tree.exportedLocal]) rfl
  | _ => exact read_exportSpecifier_of_isBare hl he

/-- What an export comes from, with its attributes, is a clause. -/
theorem fits_exportNamed {typeOnly : Bool} {d specs source attrs : Tree} (hsource : IsBare source)
    (hattrs : IsBare attrs) : Form.Fits (.exportNamed typeOnly) [d, specs, source, attrs] := by
  change Tree.allClauses [source, attrs] = true
  simp [Tree.allClauses, hsource.isClause, hattrs.isClause]

theorem isBare_absent : IsBare .absent := ⟨trivial, rfl, rfl⟩

instance {typeOnly : Bool} {d specs : Tree} :
    Fact (Form.Fits (.exportNamed typeOnly) [d, specs, .absent, .absent]) :=
  ⟨fits_exportNamed isBare_absent isBare_absent⟩

instance {typeOnly : Bool} : Yields (exportList typeOnly) := by
  unfold exportList
  refine ⟨(Gives.any _).bind fun _ _ => (gives_exportSpecifier.separated _).bind fun x hx => ?_⟩
  obtain ⟨ss, comma⟩ := x
  refine (Gives.any _).bind fun _ _ => (Gives.any _).bind fun source _ => ?_
  split
  · have hspecs : Meets (ss.map fun (ty, _, l, e) => Tree.node (.exportSpecifier ty) [l, e]) := by
      refine ⟨Tree.allRead_iff.2 fun t ht => ?_⟩
      obtain ⟨⟨ty, usable, l, e⟩, hs, rfl⟩ := List.mem_map.1 ht
      exact read_exportSpecifier_of_isBare (hx _ hs).1 (hx _ hs).2
    refine gives_quotedString.bind fun source hsource => ?_
    refine gives_importAttributes.bind fun attrs hattrs => (Gives.any _).bind fun _ _ => .pure ?_
    exact ⟨fits_exportNamed hsource hattrs, trivial, ⟨trivial, hspecs.meets⟩, hsource.read, hattrs.read,
      trivial⟩
  · have hspecs : Meets (ss.map fun (ty, _, l, e) =>
        Tree.node (.exportSpecifier ty) [localReference l, e]) := by
      refine ⟨Tree.allRead_iff.2 fun t ht => ?_⟩
      obtain ⟨⟨ty, usable, l, e⟩, hs, rfl⟩ := List.mem_map.1 ht
      exact read_exportSpecifier_localReference (hx _ hs).1 (hx _ hs).2
    exact Yields.gives

instance {typeOnly : Bool} : Yields (exportAll typeOnly) := by
  unfold exportAll
  refine ⟨(Gives.any _).bind fun _ _ => (Gives.any _).bind fun named _ => ?_⟩
  extract_lets rest
  have hrest : ∀ name, IsBare name → (rest name).Gives Tree.Read := by
    refine fun name hn => (Gives.any _).bind fun _ _ => ?_
    refine gives_quotedString.bind fun source hs => gives_importAttributes.bind fun attrs ha => ?_
    refine (Gives.any _).bind fun _ _ => .pure ⟨?_, hn.read, hs.read, ha.read, trivial⟩
    change Tree.allClauses [name, source, attrs] = true
    simp [Tree.allClauses, hn.isClause, hs.isClause, ha.isClause]
  split
  · exact gives_moduleName.bind hrest
  · exact (Gives.pure isBare_absent).bind hrest

instance {ds : Tree} [Meets ds] : Yields (exportDefault ds) := by
  unfold exportDefault
  dsimp only
  infer_instance

instance {d : Tree} [Meets d] : Meets (exported d) := by unfold exported; infer_instance

instance {ds : Tree} [Meets ds] : Yields (exportDeclaration ds) := by
  unfold exportDeclaration
  dsimp only
  infer_instance

instance {w : String} {place : Place} : Yields (wordStatement w place) := by
  unfold wordStatement
  split <;> infer_instance

instance {place : Place} : Yields (decoratedStatement place) := by
  unfold decoratedStatement
  dsimp only
  infer_instance

instance {place : Place} : Yields (statementBody place) := by
  unfold statementBody
  refine .bind fun t => ?_
  split <;> infer_instance

end Parse

/-! ## All rules -/

/-- **Every rule gives trees as they have to be** when the rules that it refers to do. -/
theorem Rule.yields_body (r : Rule) (hr : r.Ready) : r.body.Yields := by
  cases r with
  | «class» expression ds ms =>
    have : Meets ds := ⟨hr⟩
    unfold Rule.body
    infer_instance
  | _ =>
    unfold Rule.body
    infer_instance

theorem Rule.rulesSound_run : ∀ fuel : Nat, RulesSound (Rule.run fuel)
  | 0 => fun _ _ _ _ _ _ h => by cases h
  | fuel + 1 => fun r hr s t s' hs h => (r.yields_body hr).gives _ (rulesSound_run fuel) s t s' hs h

end

/-! ## Programs -/

theorem standsIn_splitHashbang (cs : List Char) : (splitHashbang cs).2.StandsIn cs := by
  unfold splitHashbang
  split
  · rename_i rest
    refine ⟨'#' :: '!' :: rest.takeWhile fun c => !Source.isLineBreak c, ?_, ?_⟩
    · rw [List.cons_append, List.cons_append, List.prefix_iff_eq_append.1 (List.takeWhile_prefix _)]
    · change 2 + _ = _
      rw [Source.byteLength_cons, Source.byteLength_cons, ← Nat.add_assoc]
      rfl
  · exact Source.standsIn_start cs

/-- **A program is made of trees as they have to be**, with its literals from its text. -/
theorem Program.read_of_parse? {text : String} {d : Dialect} {p : Program}
    (h : Program.parse? text d = some p) : @Tree.AllRead ⟨text.toList⟩ p.statements := by
  let _ : Original := ⟨text.toList⟩
  unfold Program.parse? at h
  dsimp only at h
  split at h
  · cases h
  rename_i directives statements s hitems
  split at h
  · cases h
  cases h
  have hyields : Parse.programItems.Yields := by
    unfold Parse.programItems
    infer_instance
  have hstart : ∀ bound, (State.start d (splitHashbang text.toList).2 bound).InText :=
    fun bound => (standsIn_splitHashbang text.toList).next _
  exact (hyields.gives _ (Rule.rulesSound_run _) _ _ _ (hstart _) hitems).1.2

/-- **The trees of a program are shaped.** -/
theorem Program.shaped_of_parse? {text : String} {d : Dialect} {p : Program}
    (h : Program.parse? text d = some p) : Tree.AllShaped p.statements :=
  @Tree.AllRead.shaped ⟨text.toList⟩ _ (Program.read_of_parse? h)

end Abridge
