import Abridge.Proofs.Clashes
import Abridge.Proofs.Inlining
import Abridge.Proofs.Interface

/-!
# Faults under a plan

What is wrong with a node depends on its form, on a few marks of its parts, and on the place that it stands
in.  A plan leaves all three alone, so a tree without faults stays without faults.  Three things need a
reason of their own.  A new name must be wrong nowhere: the short names end in a counter, and so none of them
is a word that the language gives a meaning (`IsOrdinary`).  A property that was short and is written out
must not start to set a prototype: the name that would do so is reserved.  And a member of an enumeration
must not start to need a value: what replaces a number is a name, and one can count on from both.

There is one place where it is wrong to write a name for a literal.  In strict code `delete` takes no name,
and it does take a literal.  The theorem at the end counts these places, and they are all that there is.

## What is here

* `IsOrdinary`, `ModulePlan.WritesOrdinary`: names that have no meaning of their own.
* `Context.inside_apply`: the places of a tree under a plan.
* `Context.nodeFaults_apply`: the faults of a node under a plan.
* `Tree.deletions`: how often a plan makes strict code delete a name.
* `Tree.faults_apply`: the faults of a tree under a plan.
-/

set_option autoImplicit false

namespace Abridge

/-! ## What a plan deletes -/

/-- One when a plan makes an operator delete a name in strict code that was a literal. -/
def Context.ownDeletions (c : Context) (plan : ModulePlan) : Form → List Tree → Nat
  | .unary .delete, [e] => faultWhen (c.strict && (plan.keyAt? e.bareOperand).isSome)
  | _, _ => 0

namespace Tree

mutual

/-- How often a plan makes strict code delete a name that was a literal. -/
def deletions (plan : ModulePlan) (c : Context) : Tree → Nat
  | .node f ps => c.ownDeletions plan f ps + deletionsOf plan f ps c 0 ps
  | _ => 0

/-- How often a plan makes the parts of a node from a position on delete a name that was a literal. -/
def deletionsOf (plan : ModulePlan) (f : Form) (all : List Tree) (c : Context) (i : Nat) : List Tree → Nat
  | [] => 0
  | t :: ts => t.deletions plan (c.inside f all i) + deletionsOf plan f all c (i + 1) ts

end

end Tree

/-! ## Ordinary names -/

/-- A name that has no meaning of its own in any place. -/
structure IsOrdinary (n : String) : Prop where
  notReserved : n ∉ reservedNames
  notType : n ∉ Context.typeWords

/-- A plan keeps reserved names, and everything that it writes is ordinary. -/
structure ModulePlan.WritesOrdinary (plan : ModulePlan) : Prop where
  kept : ∀ n ∈ reservedNames, plan.rename n = n
  renamed : ∀ n, plan.rename n = n ∨ IsOrdinary (plan.rename n)
  sites : ∀ site key, plan.sites.get? site = some key → IsOrdinary key

theorem faultWhen_eq_zero {b : Bool} : faultWhen b = 0 ↔ b = false := by
  cases b <;> simp [faultWhen]

namespace IsOrdinary

variable {n : String} (h : IsOrdinary n)

include h

theorem ne_of_mem {w : String} (hw : w ∈ reservedNames) : n ≠ w := fun heq => h.notReserved (heq ▸ hw)

theorem reserves_eq_false (c : Context) : c.reserves n = false := by
  have hstrict : ∀ w ∈ Context.strictWords, w ∈ reservedNames := by decide
  have hwords : Context.strictWords.contains n = false := by
    rw [Bool.eq_false_iff, Ne, List.contains_iff_mem]
    exact fun hmem => h.notReserved (hstrict n hmem)
  have hawait : (n == "await") = false := beq_false_of_ne (h.ne_of_mem (by decide))
  unfold Context.reserves
  rw [hawait, hwords, Bool.and_false]
  split <;> rfl

theorem bindingFaults_eq_zero (c : Context) : c.bindingFaults n = 0 := by
  have heval : (n == "eval") = false := beq_false_of_ne (h.ne_of_mem (by decide))
  have harguments : (n == "arguments") = false := beq_false_of_ne (h.ne_of_mem (by decide))
  have hlet : (n == "let") = false := beq_false_of_ne (h.ne_of_mem (by decide))
  simp [Context.bindingFaults, h.reserves_eq_false, heval, harguments, hlet, faultWhen]

theorem referenceFaults_eq_zero (c : Context) : c.referenceFaults n = 0 := by
  have heval : (n == "eval") = false := beq_false_of_ne (h.ne_of_mem (by decide))
  have harguments : (n == "arguments") = false := beq_false_of_ne (h.ne_of_mem (by decide))
  simp [Context.referenceFaults, h.reserves_eq_false, heval, harguments, faultWhen]

end IsOrdinary

namespace Tree

variable {plan : ModulePlan}

/-! ## Views of trees -/

/-- What distinguishes a function from others. -/
def functionInfo? : Tree → Option FunctionInfo
  | .node (.function info) _ => some info
  | _ => none

theorem functionInfo?_apply (plan : ModulePlan) : ∀ t : Tree, (t.apply plan).functionInfo? = t.functionInfo? :=
  apply_eq_of_form none ⟨by rintro (_ | _) ⟨⟩ <;> rfl, fun _ _ _ => rfl, fun _ _ _ _ _ => rfl⟩
    fun f ps => by cases f <;> rfl

/-- The private name that a leaf is. -/
def privateName? : Tree → Option String
  | .privateName n => some n
  | _ => none

theorem privateName?_apply (plan : ModulePlan) :
    ∀ t : Tree, (t.apply plan).privateName? = t.privateName? :=
  apply_eq_of_leaf none ⟨fun _ _ _ _ => rfl, fun _ _ => rfl, fun _ => rfl, fun _ => rfl, fun _ => rfl⟩

theorem isLoop_apply (plan : ModulePlan) : ∀ t : Tree, (t.apply plan).isLoop = t.isLoop :=
  apply_eq_of_form false ⟨by rintro (_ | _) ⟨⟩ <;> rfl, fun _ _ _ => rfl, fun _ _ _ _ _ => rfl⟩
    fun f ps => by cases f <;> rfl

theorem isFunctionStatement_apply (plan : ModulePlan) :
    ∀ t : Tree, (t.apply plan).isFunctionStatement = t.isFunctionStatement :=
  apply_eq_of_form false ⟨by rintro (_ | _) ⟨⟩ <;> rfl, fun _ _ _ => rfl, fun _ _ _ _ _ => rfl⟩
    fun f ps => by cases f <;> rfl

theorem declaresMember_apply (plan : ModulePlan) :
    ∀ t : Tree, (t.apply plan).declaresMember = t.declaresMember :=
  apply_eq_of_form false ⟨by rintro (_ | _) ⟨⟩ <;> rfl, fun _ _ _ => rfl, fun _ _ _ _ _ => rfl⟩
    fun f ps => by cases f <;> rfl

theorem isAbstractMember_apply (plan : ModulePlan) :
    ∀ t : Tree, (t.apply plan).isAbstractMember = t.isAbstractMember :=
  apply_eq_of_form false ⟨by rintro (_ | _) ⟨⟩ <;> rfl, fun _ _ _ => rfl, fun _ _ _ _ _ => rfl⟩
    fun f ps => by cases f <;> rfl

theorem isConstructorSignature_apply (plan : ModulePlan) :
    ∀ t : Tree, (t.apply plan).isConstructorSignature = t.isConstructorSignature :=
  apply_eq_of_form false ⟨by rintro (_ | _) ⟨⟩ <;> rfl, fun _ _ _ => rfl, fun _ _ _ _ _ => rfl⟩
    fun f ps => by
      cases f with
      | method kind _ => cases kind <;> rfl
      | _ => rfl

/-- How a value of a member of a class is used, if it is a constructor. -/
theorem isConstructor_apply (plan : ModulePlan) :
    ∀ t : Tree, (t.apply plan).isConstructor = t.isConstructor := by
  have hvalue : ∀ info k d (t : Tree), isConstructor (.node (.method .constructor info) [d, k, t]) =
      t.functionInfo?.any fun fn => fn.role != .bodiless := by
    intro info k d t
    cases t with
    | node f ps => cases f <;> rfl
    | _ => rfl
  have hlong : ∀ info d k (t : Tree) u us,
      isConstructor (.node (.method .constructor info) (d :: k :: t :: u :: us)) = false := by
    intro info d k t u us
    cases t with
    | node f ps => cases f <;> rfl
    | _ => rfl
  refine apply_eq_of_form false ⟨by rintro (_ | _) ⟨⟩ <;> rfl, fun _ _ _ => rfl, fun _ _ _ _ _ => rfl⟩
    fun f ps => ?_
  cases f with
  | method kind info =>
    cases kind with
    | constructor =>
      obtain _ | ⟨d, _ | ⟨k, _ | ⟨t, _ | ⟨_, _⟩⟩⟩⟩ := ps
      any_goals rfl
      · simp only [applyAll_cons, applyAll_nil, hvalue, functionInfo?_apply]
      · simp only [applyAll_cons, hlong]
    | _ => rfl
  | _ => rfl

/-! ## Classes -/

theorem missingConstructors_applyAll (plan : ModulePlan) (ms : List Tree) :
    missingConstructors (applyAll plan ms) = missingConstructors ms := by
  induction ms with
  | nil => rfl
  | cons m ms ih =>
    have hnext : ((applyAll plan ms).head?.map isConstructorSignature).getD false =
        (ms.head?.map isConstructorSignature).getD false := by
      cases ms with
      | nil => rfl
      | cons u us => exact isConstructorSignature_apply plan u
    rw [applyAll_cons, missingConstructors, missingConstructors, ih, hnext, isConstructor_apply,
      isConstructorSignature_apply]

/-- The private member that a member of a class with a key and a function declares. -/
def methodMember? (kind : MethodKind) (info : MemberInfo) (k t : Tree) : Option PrivateMember :=
  k.privateName?.bind fun n => t.functionInfo?.bind fun fn =>
    if fn.role == .bodiless then none
    else some ⟨n, if kind == .get || kind == .set then some kind else none, info.modifiers.static⟩

theorem privateMember?_method (kind : MethodKind) (info : MemberInfo) (d k t : Tree) :
    privateMember? (.node (.method kind info) [d, k, t]) = methodMember? kind info k t := by
  cases k with
  | privateName n =>
    cases t with
    | node f ps => cases f <;> rfl
    | _ => rfl
  | _ => rfl

theorem privateMember?_field (info : MemberInfo) (d k : Tree) (ps : List Tree) :
    privateMember? (.node (.field info) (d :: k :: ps)) =
      k.privateName?.map fun n => ⟨n, none, info.modifiers.static⟩ := by
  cases k <;> rfl

theorem privateMember?_apply (plan : ModulePlan) :
    ∀ t : Tree, (t.apply plan).privateMember? = t.privateMember? := by
  have hshort : ∀ kind info d (k : Tree), privateMember? (.node (.method kind info) [d, k]) = none := by
    intro kind info d k
    cases k <;> rfl
  have hlong : ∀ kind info d (k t : Tree) u us,
      privateMember? (.node (.method kind info) (d :: k :: t :: u :: us)) = none := by
    intro kind info d k t u us
    cases k with
    | privateName n =>
      cases t with
      | node f ps => cases f <;> rfl
      | _ => rfl
    | _ => rfl
  refine apply_eq_of_form none ⟨by rintro (_ | _) ⟨⟩ <;> rfl, fun _ _ _ => rfl, fun _ _ _ _ _ => rfl⟩
    fun f ps => ?_
  cases f with
  | method kind info =>
    obtain _ | ⟨d, _ | ⟨k, _ | ⟨t, _ | ⟨_, _⟩⟩⟩⟩ := ps
    any_goals rfl
    · simp only [applyAll_cons, applyAll_nil, hshort]
    · simp only [applyAll_cons, applyAll_nil, privateMember?_method, methodMember?, privateName?_apply,
        functionInfo?_apply]
    · simp only [applyAll_cons, hlong]
  | field info =>
    obtain _ | ⟨d, _ | ⟨k, ps⟩⟩ := ps
    any_goals rfl
    simp only [applyAll_cons, privateMember?_field, privateName?_apply]
  | _ => rfl

/-- The private name that a member of a class declares. -/
def declaredPrivate? : Tree → Option String
  | .node (.method _ _) (_ :: k :: _) => k.privateName?
  | .node (.field _) (_ :: k :: _) => k.privateName?
  | _ => none

theorem privateNames_eq (ms : List Tree) : privateNames ms = ms.filterMap declaredPrivate? := by
  refine congrArg (List.filterMap · ms) (funext fun t => ?_)
  cases t with
  | node f ps =>
    cases f with
    | method _ _ | field _ =>
      obtain _ | ⟨d, _ | ⟨k, ps⟩⟩ := ps
      any_goals rfl
      cases k <;> rfl
    | _ => rfl
  | _ => rfl

theorem privateNames_applyAll (plan : ModulePlan) (ms : List Tree) :
    privateNames (applyAll plan ms) = privateNames ms := by
  have hmember : ∀ t : Tree, (t.apply plan).declaredPrivate? = t.declaredPrivate? := by
    refine apply_eq_of_form none ⟨by rintro (_ | _) ⟨⟩ <;> rfl, fun _ _ _ => rfl, fun _ _ _ _ _ => rfl⟩
      fun f ps => ?_
    cases f with
    | method _ _ | field _ =>
      obtain _ | ⟨d, _ | ⟨k, ps⟩⟩ := ps
      any_goals rfl
      exact privateName?_apply plan k
    | _ => rfl
  rw [privateNames_eq, privateNames_eq, applyAll_eq_map, List.filterMap_map]
  exact congrArg (List.filterMap · ms) (funext hmember)

/-- What a plan keeps of every tree is kept of those that pass a test. -/
theorem length_filter_applyAll {test : Tree → Bool} (htest : ∀ t, test (t.apply plan) = test t)
    (ts : List Tree) : ((applyAll plan ts).filter test).length = (ts.filter test).length := by
  rw [applyAll_eq_map, List.filter_map, List.length_map]
  exact congrArg (fun test => (ts.filter test).length) (funext htest)

theorem classFaults_applyAll (plan : ModulePlan) (c : Context) (info : ClassInfo) (ms : List Tree) :
    c.classFaults info (applyAll plan ms) = c.classFaults info ms := by
  have hmembers : (applyAll plan ms).filterMap privateMember? = ms.filterMap privateMember? := by
    rw [applyAll_eq_map, List.filterMap_map]
    exact congrArg (List.filterMap · ms) (funext (privateMember?_apply plan))
  simp only [Context.classFaults, surplus, length_filter_applyAll (isConstructor_apply plan),
    length_filter_applyAll (isAbstractMember_apply plan), missingConstructors_applyAll, hmembers]

theorem length_applyAll (plan : ModulePlan) (ts : List Tree) : (applyAll plan ts).length = ts.length := by
  rw [applyAll_eq_map, List.length_map]

/-- The name of a label. -/
def label? : Tree → Option String
  | .label n => some n
  | _ => none

theorem label?_apply (plan : ModulePlan) : ∀ t : Tree, (t.apply plan).label? = t.label? :=
  apply_eq_of_leaf none ⟨fun _ _ _ _ => rfl, fun _ _ => rfl, fun _ => rfl, fun _ => rfl, fun _ => rfl⟩

end Tree

/-! ## Contexts -/

namespace Context

variable {plan : ModulePlan}

/-- The context of a part of a class. -/
def insideClass (c : Context) (info : ClassInfo) (base : Tree) (i : Nat) (members : List Tree) : Context :=
  let p := { c.plain with
    strict := true, ambient := c.ambient || info.ambient, derived := !base.isAbsent }
  if i = 6 then { p with privates := some (Tree.privateNames members ++ c.privates.getD []) } else p

theorem inside_class (c : Context) (info : ClassInfo) (a₁ a₂ a₃ base a₅ a₆ t : Tree) (i : Nat) :
    c.inside (.class info) [a₁, a₂, a₃, base, a₅, a₆, t] i =
      t.groupParts?.elim c.plain (c.insideClass info base i) := by
  cases t with
  | node f ps => cases f <;> rfl
  | _ => rfl

theorem inside_class_of_length {ps : List Tree} (hps : ps.length ≠ 7) (c : Context) (info : ClassInfo)
    (i : Nat) : c.inside (.class info) ps i = c.plain := by
  obtain _ | ⟨_, _ | ⟨_, _ | ⟨_, _ | ⟨_, _ | ⟨_, _ | ⟨_, _ | ⟨t, _ | ⟨_, _⟩⟩⟩⟩⟩⟩⟩⟩ := ps
  any_goals rfl
  · exact absurd rfl hps
  · cases t with
    | node f ps => cases f <;> rfl
    | _ => rfl

theorem inside_labelled (c : Context) (l s : Tree) (i : Nat) :
    c.inside .labelled [l, s] i =
      l.label?.elim c.plain fun n => { c.plain with labels := (n, s.isLoop) :: c.labels } := by
  cases l <;> rfl

theorem inside_labelled_of_length {ps : List Tree} (hps : ps.length ≠ 2) (c : Context) (i : Nat) :
    c.inside .labelled ps i = c.plain := by
  obtain _ | ⟨l, _ | ⟨_, _ | ⟨_, _⟩⟩⟩ := ps
  · rfl
  · cases l <;> rfl
  · exact absurd rfl hps
  · cases l <;> rfl

/-- **A plan leaves the places of a tree what they were.** -/
theorem inside_apply (plan : ModulePlan) (c : Context) (f : Form) (ps : List Tree) (i : Nat) :
    c.inside (f.settle (Tree.applyAll plan ps)) (Tree.applyAll plan ps) i = c.inside f ps i := by
  cases f with
  | function info =>
    obtain _ | ⟨n, _ | ⟨tps, _ | ⟨this, _ | ⟨params, _ | ⟨ret, _ | ⟨body, _ | ⟨_, _⟩⟩⟩⟩⟩⟩⟩ := ps
    any_goals rfl
    change { c.inside (.function info) [n, tps, this, params, ret, body] i with
      strict := c.strict || (body.apply plan).opensStrict } = _
    rw [Tree.opensStrict_apply]
    rfl
  | arrow async concise =>
    obtain _ | ⟨tps, _ | ⟨params, _ | ⟨ret, _ | ⟨body, _ | ⟨_, _⟩⟩⟩⟩⟩ := ps
    any_goals rfl
    change { c.inside (.arrow async concise) [tps, params, ret, body] i with
      strict := c.strict || (body.apply plan).opensStrict } = _
    rw [Tree.opensStrict_apply]
    rfl
  | «class» info =>
    by_cases hps : ps.length = 7
    · obtain _ | ⟨_, _ | ⟨_, _ | ⟨_, _ | ⟨base, _ | ⟨_, _ | ⟨_, _ | ⟨t, _ | ⟨_, _⟩⟩⟩⟩⟩⟩⟩⟩ := ps
      any_goals cases hps
      simp only [Tree.applyAll_cons, Tree.applyAll_nil, Form.settle, inside_class, Tree.groupParts?_apply]
      cases t.groupParts? with
      | none => rfl
      | some members =>
        simp only [Option.map_some, Option.elim_some, insideClass, Tree.isAbsent_apply,
          Tree.privateNames_applyAll]
    · exact (inside_class_of_length (by rwa [Tree.length_applyAll]) c info i).trans
        (inside_class_of_length hps c info i).symm
  | labelled =>
    by_cases hps : ps.length = 2
    · obtain _ | ⟨l, _ | ⟨s, _ | ⟨_, _⟩⟩⟩ := ps
      any_goals cases hps
      simp only [Tree.applyAll_cons, Tree.applyAll_nil, Form.settle, inside_labelled, Tree.label?_apply,
        Tree.isLoop_apply]
    · exact (inside_labelled_of_length (by rwa [Tree.length_applyAll]) c i).trans
        (inside_labelled_of_length hps c i).symm
  | property info | bindingProperty _ _ =>
    obtain _ | ⟨_, _ | ⟨_, _ | ⟨_, _⟩⟩⟩ := ps <;> rfl
  | _ => rfl

/-! ## Faults of single nodes -/

theorem functionBodyFaults_apply (plan : ModulePlan) (c : Context) (permitted : Bool) (body : Tree) :
    c.functionBodyFaults permitted (body.apply plan) = c.functionBodyFaults permitted body := by
  rw [functionBodyFaults, functionBodyFaults, Tree.isFunctionStatement_apply]

end Context

namespace Tree

variable {plan : ModulePlan}

/-- The faults of a declarator in the head of a loop. -/
def headFaults (strict keys : Bool) (word : VarWord) : Tree → Nat
  | .node (.declarator _) [p, t, init] =>
    faultWhen (!init.isAbsent && (strict || !keys || word.isLexical || !p.isBinding)) +
      faultWhen !t.isAbsent
  | _ => 0

theorem loopHeadFaults_variables (strict keys : Bool) (word : VarWord) (ambient : Bool) (ds : List Tree) :
    loopHeadFaults strict keys (.node (.variables word ambient) ds) =
      faultWhen (ds.length > 1) + total (ds.map (headFaults strict keys word)) := by
  refine congrArg (fun g => faultWhen (ds.length > 1) + total (ds.map g)) (funext fun t => ?_)
  cases t with
  | node f ps =>
    cases f with
    | declarator _ =>
      obtain _ | ⟨p, _ | ⟨_, _ | ⟨_, _ | ⟨_, _⟩⟩⟩⟩ := ps
      any_goals rfl
    | _ => rfl
  | _ => rfl

theorem loopHeadFaults_apply (plan : ModulePlan) (strict keys : Bool) :
    ∀ t : Tree, (t.apply plan).loopHeadFaults strict keys = t.loopHeadFaults strict keys := by
  have hdeclarator : ∀ (word : VarWord) (t : Tree),
      (t.apply plan).headFaults strict keys word = t.headFaults strict keys word := by
    intro word
    refine apply_eq_of_form 0 ⟨by rintro (_ | _) ⟨⟩ <;> rfl, fun _ _ _ => rfl, fun _ _ _ _ _ => rfl⟩
      fun f ps => ?_
    cases f with
    | declarator _ =>
      obtain _ | ⟨p, _ | ⟨t, _ | ⟨init, _ | ⟨_, _⟩⟩⟩⟩ := ps
      any_goals rfl
      simp only [applyAll_cons, applyAll_nil, headFaults, isAbsent_apply, isBinding_apply]
    | _ => rfl
  refine apply_eq_of_form 0 ⟨by rintro (_ | _) ⟨⟩ <;> rfl, fun _ _ _ => rfl, fun _ _ _ _ _ => rfl⟩
    fun f ps => ?_
  cases f with
  | «variables» word ambient =>
    rw [loopHeadFaults_variables, loopHeadFaults_variables, length_applyAll, applyAll_eq_map, List.map_map]
    exact congrArg (fun g => faultWhen (ps.length > 1) + total (ps.map g)) (funext (hdeclarator word))
  | _ => rfl

theorem isDefault_apply (plan : ModulePlan) :
    ∀ t : Tree, Context.nodeFaults.isDefault (t.apply plan) = Context.nodeFaults.isDefault t := by
  refine apply_eq_of_form false ⟨by rintro (_ | _) ⟨⟩ <;> rfl, fun _ _ _ => rfl, fun _ _ _ _ _ => rfl⟩
    fun f ps => ?_
  cases f with
  | case =>
    cases ps with
    | nil => rfl
    | cons test ss => exact isAbsent_apply plan test
  | _ => rfl

theorem isExternal_apply (plan : ModulePlan) :
    ∀ t : Tree, Context.nodeFaults.isExternal (t.apply plan) = Context.nodeFaults.isExternal t :=
  apply_eq_of_form false ⟨by rintro (_ | _) ⟨⟩ <;> rfl, fun _ _ _ => rfl, fun _ _ _ _ _ => rfl⟩
    fun f ps => by cases f <;> rfl

/-- Whether a tree is a sequence of expressions. -/
def isSequence : Tree → Bool
  | .node .sequence _ => true
  | _ => false

theorem isSequence_apply (plan : ModulePlan) : ∀ t : Tree, (t.apply plan).isSequence = t.isSequence :=
  apply_eq_of_form false ⟨by rintro (_ | _) ⟨⟩ <;> rfl, fun _ _ _ => rfl, fun _ _ _ _ _ => rfl⟩
    fun f ps => by cases f <;> rfl

/-- Whether a tree is the word `new`. -/
def isNewWord : Tree → Bool
  | .name n => n == "new"
  | _ => false

theorem isNewWord_apply (plan : ModulePlan) : ∀ t : Tree, (t.apply plan).isNewWord = t.isNewWord :=
  apply_eq_of_leaf false ⟨fun _ _ _ _ => rfl, fun _ _ => rfl, fun _ => rfl, fun _ => rfl, fun _ => rfl⟩

theorem surplus_applyAll {test : Tree → Bool} (htest : ∀ t, test (t.apply plan) = test t)
    (ts : List Tree) : surplus test (applyAll plan ts) = surplus test ts := by
  rw [surplus, surplus, length_filter_applyAll htest]

/-! ### Parameters and members -/

/-- Whether a parameter is optional, and whether it has no default. -/
def paramView? : Tree → Option (Bool × Bool)
  | .node (.param _ isOptional) [_, _, _, init] => some (isOptional, init.isAbsent)
  | _ => none

theorem paramView?_apply (plan : ModulePlan) : ∀ t : Tree, (t.apply plan).paramView? = t.paramView? := by
  refine apply_eq_of_form none ⟨by rintro (_ | _) ⟨⟩ <;> rfl, fun _ _ _ => rfl, fun _ _ _ _ _ => rfl⟩
    fun f ps => ?_
  cases f with
  | param _ isOptional =>
    obtain _ | ⟨_, _ | ⟨_, _ | ⟨_, _ | ⟨init, _ | ⟨_, _⟩⟩⟩⟩⟩ := ps
    any_goals rfl
    exact congrArg (fun b => some (isOptional, b)) (isAbsent_apply plan init)
  | _ => rfl

theorem misplacedParams_cons (optional : Bool) (p : Tree) (ps : List Tree) :
    misplacedParams optional (p :: ps) =
      p.paramView?.elim (misplacedParams optional ps) fun x =>
        faultWhen (optional && !x.1 && x.2) + misplacedParams (optional || x.1) ps := by
  cases p with
  | node f qs =>
    cases f with
    | param _ _ => obtain _ | ⟨_, _ | ⟨_, _ | ⟨_, _ | ⟨_, _ | ⟨_, _⟩⟩⟩⟩⟩ := qs <;> rfl
    | _ => rfl
  | _ => rfl

theorem misplacedParams_applyAll (plan : ModulePlan) (ps : List Tree) :
    ∀ optional, misplacedParams optional (applyAll plan ps) = misplacedParams optional ps := by
  induction ps with
  | nil => exact fun _ => rfl
  | cons p ps ih =>
    intro optional
    rw [applyAll_cons, misplacedParams_cons, misplacedParams_cons, paramView?_apply, ih]
    simp only [ih]

/-- The value of a member of an enumeration. -/
def memberValue? : Tree → Option Tree
  | .node (.enumMember _) [_, v] => some v
  | _ => none

theorem memberValue?_apply (plan : ModulePlan) :
    ∀ t : Tree, (t.apply plan).memberValue? = t.memberValue?.map (apply plan) := by
  refine apply_map_of_form (Option.map (apply plan)) none rfl
    ⟨by rintro (_ | _) ⟨⟩ <;> rfl, fun _ _ _ => rfl, fun _ _ _ _ _ => rfl⟩ fun f ps => ?_
  cases f with
  | enumMember _ => obtain _ | ⟨_, _ | ⟨_, _ | ⟨_, _⟩⟩⟩ := ps <;> rfl
  | _ => rfl

theorem missingValues_cons (needed : Bool) (m : Tree) (ms : List Tree) :
    missingValues needed (m :: ms) =
      m.memberValue?.elim (missingValues needed ms) fun v =>
        if v.isAbsent then faultWhen needed + missingValues needed ms
        else missingValues (!v.isCountable) ms := by
  cases m with
  | node f qs =>
    cases f with
    | enumMember _ => obtain _ | ⟨_, _ | ⟨_, _ | ⟨_, _⟩⟩⟩ := qs <;> rfl
    | _ => rfl
  | _ => rfl

/-- What lets a member count on still does so under a plan: it is a number, a name or an operation, and a
number becomes a name at most. -/
theorem isCountable_apply {t : Tree} (ht : t.isCountable = true) : (t.apply plan).isCountable = true := by
  cases t with
  | node f ps =>
    have hform : ∀ ps ps' : List Tree, isCountable (.node f ps) = isCountable (.node f ps') := by
      intro ps ps'
      cases f <;> rfl
    rw [apply_node]
    rcases f.settle_cases (applyAll plan ps) with heq | ⟨_, _, rfl, -⟩ | ⟨_, _, _, _, rfl, -⟩
    · rw [heq, hform _ ps, ht]
    · cases ht
    · cases ht
  | number _ =>
    rw [apply, ModulePlan.replace]
    split <;> rfl
  | reference _ => rfl
  | _ => cases ht

/-- No value is missing under a plan that was not missing before. -/
theorem missingValues_applyAll (plan : ModulePlan) (ms : List Tree) :
    ∀ needed needed' : Bool, (needed' = true → needed = true) →
      missingValues needed ms = 0 → missingValues needed' (applyAll plan ms) = 0 := by
  induction ms with
  | nil => exact fun _ _ _ _ => rfl
  | cons m ms ih =>
    intro needed needed' hneeded h
    rw [missingValues_cons] at h
    rw [applyAll_cons, missingValues_cons, memberValue?_apply]
    cases hvalue : m.memberValue? with
    | none =>
      rw [hvalue, Option.elim_none] at h
      exact ih needed needed' hneeded h
    | some v =>
      rw [hvalue, Option.elim_some] at h
      rw [Option.map_some, Option.elim_some, isAbsent_apply]
      split at h
      · rename_i habsent
        obtain ⟨hfault, hrest⟩ := Nat.add_eq_zero_iff.1 h
        have hneeded' : needed' = false :=
          Bool.eq_false_iff.2 fun h => absurd (hneeded h) (Bool.eq_false_iff.1 (faultWhen_eq_zero.1 hfault))
        rw [if_pos habsent, ih needed needed' hneeded hrest, hneeded']
        rfl
      · rename_i habsent
        rw [if_neg habsent]
        refine ih _ _ (fun hcount => ?_) h
        rw [Bool.not_eq_true'] at hcount ⊢
        exact Bool.eq_false_iff.2 fun h => Bool.eq_false_iff.1 hcount (isCountable_apply h)

/-! ### Objects -/

/-- Whether a key names the prototype. -/
def isPrototypeKey : Tree → Bool
  | .name n => n == "__proto__"
  | .string lit => lit.value == "__proto__"
  | _ => false

theorem setsPrototype_property (info : PropertyInfo) (k v : Tree) :
    setsPrototype (.node (.property info) [k, v]) =
      (info.kind == .value && !info.method && !info.shorthand && !info.computed && k.isPrototypeKey) := by
  cases k <;> rfl

/-- A property that sets the prototype under a plan did so before: the name is reserved, so a short form
of it, which does not set the prototype, stays one. -/
theorem setsPrototype_of_apply (hplan : plan.WritesOrdinary) {t : Tree} (ht : t.Shaped)
    (h : (t.apply plan).setsPrototype = true) : t.setsPrototype = true := by
  cases t with
  | node f ps =>
    cases f with
    | property info =>
      obtain _ | ⟨k, _ | ⟨v, _ | ⟨_, _⟩⟩⟩ := ps
      any_goals exact h
      rw [apply_node, applyAll_cons, applyAll_cons, applyAll_nil, Form.settle, setsPrototype_property] at h
      rw [setsPrototype_property]
      cases hshort : info.shorthand with
      | false =>
        rw [hshort] at h
        cases k with
        | string lit =>
          rw [apply, ModulePlan.replace] at h
          split at h
          · simp [isPrototypeKey] at h
          · exact h
        | number lit =>
          rw [apply, ModulePlan.replace] at h
          split at h
          · simp [isPrototypeKey] at h
          · exact h
        | _ => exact h
      | true =>
        have hfits := ht.1
        rw [Form.Fits, hshort] at hfits
        obtain ⟨n, v', heq, hv, hsame⟩ := hfits
        cases heq
        have hkey : n = "__proto__" := by
          simp only [Bool.and_eq_true] at h
          exact eq_of_beq h.2
        have hstays : staysShort (.name n) (v.apply plan) = true := by
          rw [staysShort_name, shortName?_apply plan hv, Option.all_map]
          cases hname : v.shortName? with
          | none => rfl
          | some m =>
            rw [hsame m hname, hkey]
            exact beq_iff_eq.2 (hplan.kept _ (by decide)).symm
        rw [hshort, show (Tree.name n).apply plan = .name n from rfl, hstays] at h
        simp at h
    | bindingProperty _ _ =>
      obtain _ | ⟨k, _ | ⟨v, _ | ⟨_, _⟩⟩⟩ := ps <;> cases h
    | _ => cases h
  | string _ | number _ =>
    rw [apply, ModulePlan.replace] at h
    split at h <;> cases h
  | _ => cases h

/-- No more of the trees pass a test under a plan than passed another before, if every one that does passed
it. -/
theorem length_filter_applyAll_le {test test' : Tree → Bool} {ts : List Tree}
    (h : ∀ t ∈ ts, test' (t.apply plan) = true → test t = true) :
    ((applyAll plan ts).filter test').length ≤ (ts.filter test).length := by
  rw [← List.countP_eq_length_filter, ← List.countP_eq_length_filter, applyAll_eq_map, List.countP_map]
  exact List.countP_mono_left fun t ht => h t ht

end Tree

/-! ## Deletions -/

namespace Tree

theorem bareOperand_apply (plan : ModulePlan) (t : Tree) :
    (t.apply plan).bareOperand = t.bareOperand.apply plan := by
  cases t with
  | node f ps =>
    cases f with
    | paren | nonNull =>
      obtain _ | ⟨e, _ | ⟨_, _⟩⟩ := ps
      · rfl
      · exact bareOperand_apply plan e
      · rfl
    | «as» | satisfies =>
      obtain _ | ⟨e, _ | ⟨_, _ | ⟨_, _⟩⟩⟩ := ps
      · rfl
      · rfl
      · exact bareOperand_apply plan e
      · rfl
    | assertion =>
      obtain _ | ⟨_, _ | ⟨e, _ | ⟨_, _⟩⟩⟩ := ps
      · rfl
      · rfl
      · exact bareOperand_apply plan e
      · rfl
    | property _ | bindingProperty _ _ => obtain _ | ⟨_, _ | ⟨_, _ | ⟨_, _⟩⟩⟩ := ps <;> rfl
    | _ => rfl
  | string _ | number _ =>
    change (plan.replace _ _).bareOperand = plan.replace _ _
    rw [ModulePlan.replace]
    split <;> rfl
  | _ => rfl

/-- Whether a tree is a private member of an object. -/
def isPrivateMember : Tree → Bool
  | .node (.privateMember _) _ => true
  | _ => false

theorem isPrivateMember_apply (plan : ModulePlan) :
    ∀ t : Tree, (t.apply plan).isPrivateMember = t.isPrivateMember :=
  apply_eq_of_form false ⟨by rintro (_ | _) ⟨⟩ <;> rfl, fun _ _ _ => rfl, fun _ _ _ _ _ => rfl⟩
    fun f ps => by cases f <;> rfl

end Tree

namespace Context

variable {plan : ModulePlan}

/-- The faults of deleting an operand. -/
def deleteFaults (c : Context) : Tree → Nat
  | .reference _ => faultWhen c.strict
  | .node (.privateMember _) _ => 1
  | .node .chain [e] => faultWhen e.isPrivateMember
  | _ => 0

theorem nodeFaults_delete (c : Context) (e : Tree) :
    c.nodeFaults (.unary .delete) [e] = c.deleteFaults e.bareOperand := by
  unfold nodeFaults
  dsimp only
  cases e.bareOperand with
  | node f ps =>
    cases f with
    | chain =>
      obtain _ | ⟨u, _ | ⟨_, _⟩⟩ := ps
      · rfl
      · cases u with
        | node g qs => cases g <;> rfl
        | _ => rfl
      · cases u with
        | node g qs => cases g <;> rfl
        | _ => rfl
    | _ => rfl
  | _ => rfl

/-- A literal becomes a name, and strict code deletes no names. -/
theorem deleteFaults_apply (plan : ModulePlan) (c : Context) (t : Tree) :
    c.deleteFaults (t.apply plan) = c.deleteFaults t + faultWhen (c.strict && (plan.keyAt? t).isSome) := by
  have hnone : c.deleteFaults t = c.deleteFaults t + faultWhen (c.strict && false) := by
    rw [Bool.and_false]
    rfl
  cases t with
  | node f ps =>
    refine Eq.trans ?_ hnone
    cases f with
    | chain =>
      obtain _ | ⟨u, _ | ⟨_, _⟩⟩ := ps
      · rfl
      · exact congrArg faultWhen (Tree.isPrivateMember_apply plan u)
      · rfl
    | property _ | bindingProperty _ _ => obtain _ | ⟨_, _ | ⟨_, _ | ⟨_, _⟩⟩⟩ := ps <;> rfl
    | _ => rfl
  | string lit | number lit =>
    change c.deleteFaults (plan.replace lit.start _) =
      0 + faultWhen (c.strict && (plan.sites.get? lit.start).isSome)
    rw [ModulePlan.replace]
    cases plan.sites.get? lit.start with
    | none => exact hnone
    | some key => simp [deleteFaults]
  | _ => exact hnone

/-! ## Faults of nodes -/

theorem nodeFaults_class (c : Context) (info : ClassInfo) (a₁ name a₃ a₄ a₅ a₆ t : Tree) :
    c.nodeFaults (.class info) [a₁, name, a₃, a₄, a₅, a₆, t] =
      t.groupParts?.elim 0 fun members =>
        faultWhen (!info.expression && name.isAbsent && !c.nameless) + c.classFaults info members := by
  cases t with
  | node f ps => cases f <;> rfl
  | _ => rfl

theorem nodeFaults_class_of_length {ps : List Tree} (hps : ps.length ≠ 7) (c : Context) (info : ClassInfo) :
    c.nodeFaults (.class info) ps = 0 := by
  obtain _ | ⟨_, _ | ⟨_, _ | ⟨_, _ | ⟨_, _ | ⟨_, _ | ⟨_, _ | ⟨t, _ | ⟨_, _⟩⟩⟩⟩⟩⟩⟩⟩ := ps
  any_goals rfl
  · exact absurd rfl hps
  · cases t with
    | node f ps => cases f <;> rfl
    | _ => rfl

theorem nodeFaults_method (c : Context) (kind : MethodKind) (info : MemberInfo) (d k t : Tree) :
    c.nodeFaults (.method kind info) [d, k, t] = t.functionInfo?.elim 0 (c.methodFaults kind info) := by
  cases t with
  | node f ps => cases f <;> rfl
  | _ => rfl

theorem nodeFaults_method_of_length {ps : List Tree} (hps : ps.length ≠ 3) (c : Context) (kind : MethodKind)
    (info : MemberInfo) : c.nodeFaults (.method kind info) ps = 0 := by
  obtain _ | ⟨_, _ | ⟨_, _ | ⟨t, _ | ⟨_, _⟩⟩⟩⟩ := ps
  any_goals rfl
  · exact absurd rfl hps
  · cases t with
    | node f ps => cases f <;> rfl
    | _ => rfl

theorem nodeFaults_container (c : Context) (t : Tree) :
    c.nodeFaults .container [t] = faultWhen t.isSequence := by
  cases t with
  | node f ps => cases f <;> rfl
  | _ => rfl

theorem nodeFaults_container_of_length {ps : List Tree} (hps : ps.length ≠ 1) (c : Context) :
    c.nodeFaults .container ps = 0 := by
  obtain _ | ⟨t, _ | ⟨_, _⟩⟩ := ps
  · rfl
  · exact absurd rfl hps
  · cases t with
    | node f ps => cases f <;> rfl
    | _ => rfl

theorem nodeFaults_labelled (c : Context) (l s : Tree) :
    c.nodeFaults .labelled [l, s] =
      l.label?.elim 0 fun n =>
        faultWhen (c.labels.any fun l => l.1 == n) + c.functionBodyFaults true s := by
  cases l <;> rfl

theorem nodeFaults_labelled_of_length {ps : List Tree} (hps : ps.length ≠ 2) (c : Context) :
    c.nodeFaults .labelled ps = 0 := by
  obtain _ | ⟨l, _ | ⟨_, _ | ⟨_, _⟩⟩⟩ := ps
  · rfl
  · cases l <;> rfl
  · exact absurd rfl hps
  · cases l <;> rfl

/-- A meta property that is not one of `new` is a fault outside modules. -/
theorem nodeFaults_metaProperty_other {n : String} (hn : n ≠ "new") (c : Context) (ts : List Tree) :
    c.nodeFaults .metaProperty (.name n :: ts) = faultWhen !c.dialect.module := by
  unfold nodeFaults
  split
  all_goals try contradiction
  · rename_i heq
    cases heq
    exact absurd rfl hn
  · rfl

theorem nodeFaults_metaProperty (c : Context) (l t : Tree) :
    c.nodeFaults .metaProperty [l, t] =
      faultWhen !(if l.isNewWord then c.function else c.dialect.module) := by
  cases l with
  | name n =>
    by_cases hn : n = "new"
    · subst hn
      rfl
    · rw [nodeFaults_metaProperty_other hn, Tree.isNewWord, beq_false_of_ne hn]
      rfl
  | _ => rfl

theorem nodeFaults_metaProperty_of_length {ps : List Tree} (hps : ps.length ≠ 2) (c : Context) :
    c.nodeFaults .metaProperty ps = faultWhen !c.dialect.module := by
  cases ps with
  | nil => rfl
  | cons l ts =>
    cases l with
    | name n =>
      by_cases hn : n = "new"
      · subst hn
        obtain _ | ⟨_, _ | ⟨_, _⟩⟩ := ts
        · rfl
        · exact absurd rfl hps
        · rfl
      · exact nodeFaults_metaProperty_other hn c ts
    | _ => rfl

theorem nodeFaults_enum (c : Context) (const ambient : Bool) (ps : List Tree) :
    c.nodeFaults (.enum const ambient) ps = Tree.missingValues false (Tree.enumMembers ps) := by
  obtain _ | ⟨_, _ | ⟨t, _ | ⟨_, _⟩⟩⟩ := ps
  any_goals rfl
  all_goals
    cases t with
    | node f _ => cases f <;> rfl
    | _ => rfl

/-- The faults of the name that a type is declared by. -/
def typeNameFaults : Tree → Nat
  | .binding n => faultWhen (typeWords.contains n)
  | _ => 0

theorem nodeFaults_type {f : Form}
    (hf : (∃ a, f = .typeAlias a) ∨ (∃ a, f = .interface a) ∨ ∃ ms, f = .typeParam ms) (c : Context)
    (t : Tree) (ts : List Tree) : c.nodeFaults f (t :: ts) = typeNameFaults t := by
  rcases hf with ⟨_, rfl⟩ | ⟨_, rfl⟩ | ⟨_, rfl⟩
  all_goals cases t <;> rfl

theorem typeNameFaults_apply (hplan : plan.WritesOrdinary) {t : Tree} (h : typeNameFaults t = 0) :
    typeNameFaults (t.apply plan) = 0 := by
  cases t with
  | binding n =>
    rcases hplan.renamed n with heq | hordinary
    · rwa [Tree.apply, heq]
    · refine faultWhen_eq_zero.2 (Bool.eq_false_iff.2 fun hmem => ?_)
      exact hordinary.notType (List.contains_iff_mem.1 hmem)
  | string _ | number _ =>
    rw [Tree.apply, ModulePlan.replace]
    split <;> rfl
  | _ => rfl

/-- **A valid node stays valid under a plan**, unless it deletes a literal that the plan replaces. -/
theorem nodeFaults_apply (hplan : plan.WritesOrdinary) (c : Context) {f : Form} {ps : List Tree}
    (hps : Tree.AllShaped ps) (h : c.nodeFaults f ps = 0) :
    c.nodeFaults (f.settle (Tree.applyAll plan ps)) (Tree.applyAll plan ps) = c.ownDeletions plan f ps := by
  cases f with
  | «break» | «continue» =>
    obtain _ | ⟨l, _ | ⟨_, _⟩⟩ := ps
    · exact h
    · cases l with
      | string _ | number _ =>
        rw [Tree.applyAll_cons, Tree.apply, ModulePlan.replace]
        split <;> exact h
      | _ => exact h
    · cases l with
      | string _ | number _ =>
        rw [Tree.applyAll_cons, Tree.apply, ModulePlan.replace]
        split <;> exact h
      | _ => exact h
  | labelled =>
    by_cases hlength : ps.length = 2
    · obtain _ | ⟨l, _ | ⟨s, _ | ⟨_, _⟩⟩⟩ := ps
      any_goals cases hlength
      rw [nodeFaults_labelled] at h
      simp only [Tree.applyAll_cons, Tree.applyAll_nil, Form.settle, nodeFaults_labelled, Tree.label?_apply,
        functionBodyFaults_apply]
      exact h
    · exact nodeFaults_labelled_of_length (by rwa [Tree.length_applyAll]) c
  | «if» =>
    obtain _ | ⟨_, _ | ⟨yes, _ | ⟨no, _ | ⟨_, _⟩⟩⟩⟩ := ps
    any_goals rfl
    exact (congrArg₂ (· + ·) (functionBodyFaults_apply plan c true yes)
      (functionBodyFaults_apply plan c true no)).trans h
  | «for» =>
    obtain _ | ⟨_, _ | ⟨_, _ | ⟨_, _ | ⟨body, _ | ⟨_, _⟩⟩⟩⟩⟩ := ps
    any_goals rfl
    exact (functionBodyFaults_apply plan c false body).trans h
  | forIn | forOf _ =>
    obtain _ | ⟨left, _ | ⟨_, _ | ⟨body, _ | ⟨_, _⟩⟩⟩⟩ := ps
    any_goals rfl
    exact (congrArg₂ (· + ·) (functionBodyFaults_apply plan c false body)
      (Tree.loopHeadFaults_apply plan c.strict _ left)).trans h
  | «while» =>
    obtain _ | ⟨_, _ | ⟨body, _ | ⟨_, _⟩⟩⟩ := ps
    any_goals rfl
    exact (functionBodyFaults_apply plan c false body).trans h
  | doWhile =>
    obtain _ | ⟨body, _ | ⟨_, _ | ⟨_, _⟩⟩⟩ := ps
    any_goals rfl
    exact (functionBodyFaults_apply plan c false body).trans h
  | «with» =>
    obtain _ | ⟨_, _ | ⟨body, _ | ⟨_, _⟩⟩⟩ := ps
    any_goals rfl
    exact (congrArg (_ + ·) (functionBodyFaults_apply plan c false body)).trans h
  | switch =>
    cases ps with
    | nil => rfl
    | cons test cases => exact (Tree.surplus_applyAll (Tree.isDefault_apply plan) cases).trans h
  | unary op =>
    cases op with
    | delete =>
      obtain _ | ⟨e, _ | ⟨_, _⟩⟩ := ps
      any_goals rfl
      rw [nodeFaults_delete] at h
      rw [Tree.applyAll_cons, Tree.applyAll_nil, Form.settle, nodeFaults_delete, Tree.bareOperand_apply,
        deleteFaults_apply, h, Nat.zero_add, ownDeletions]
      · rintro _ _ _ ⟨⟩
      · rintro _ _ _ _ ⟨⟩
    | _ => rfl
  | metaProperty =>
    by_cases hlength : ps.length = 2
    · obtain _ | ⟨l, _ | ⟨t, _ | ⟨_, _⟩⟩⟩ := ps
      any_goals cases hlength
      rw [nodeFaults_metaProperty] at h
      simp only [Tree.applyAll_cons, Tree.applyAll_nil, Form.settle, nodeFaults_metaProperty,
        Tree.isNewWord_apply]
      exact h
    · exact (nodeFaults_metaProperty_of_length (by rwa [Tree.length_applyAll]) c).trans
        ((nodeFaults_metaProperty_of_length hlength c).symm.trans h)
  | «class» info =>
    by_cases hlength : ps.length = 7
    · obtain _ | ⟨_, _ | ⟨name, _ | ⟨_, _ | ⟨_, _ | ⟨_, _ | ⟨_, _ | ⟨t, _ | ⟨_, _⟩⟩⟩⟩⟩⟩⟩⟩ := ps
      any_goals cases hlength
      simp only [Tree.applyAll_cons, Tree.applyAll_nil, Form.settle, nodeFaults_class,
        Tree.groupParts?_apply, Tree.isAbsent_apply] at h ⊢
      cases hmembers : t.groupParts? with
      | none => rfl
      | some members =>
        rw [hmembers] at h
        exact (congrArg (_ + ·) (Tree.classFaults_applyAll plan c info members)).trans h
    · exact nodeFaults_class_of_length (by rwa [Tree.length_applyAll]) c info
  | method kind info =>
    by_cases hlength : ps.length = 3
    · obtain _ | ⟨_, _ | ⟨_, _ | ⟨t, _ | ⟨_, _⟩⟩⟩⟩ := ps
      any_goals cases hlength
      simp only [Tree.applyAll_cons, Tree.applyAll_nil, Form.settle, nodeFaults_method,
        Tree.functionInfo?_apply] at h ⊢
      exact h
    · exact nodeFaults_method_of_length (by rwa [Tree.length_applyAll]) c kind info
  | field info =>
    obtain _ | ⟨_, _ | ⟨_, _ | ⟨_, _ | ⟨v, _ | ⟨_, _⟩⟩⟩⟩⟩ := ps
    any_goals rfl
    exact (congrArg (fun b => faultWhen (info.modifiers.abstract && !b)) (Tree.isAbsent_apply plan v)).trans h
  | object comma =>
    have hle := Tree.length_filter_applyAll_le fun t ht =>
      Tree.setsPrototype_of_apply hplan (Tree.allShaped_iff.1 hps t ht)
    exact Nat.le_zero.1 (h ▸ Nat.sub_le_sub_right hle 1)
  | container =>
    by_cases hlength : ps.length = 1
    · obtain _ | ⟨t, _ | ⟨_, _⟩⟩ := ps
      any_goals cases hlength
      rw [nodeFaults_container] at h
      rw [Tree.applyAll_cons, Tree.applyAll_nil, Form.settle, nodeFaults_container, Tree.isSequence_apply, h]
      · rfl
      · rintro _ _ _ ⟨⟩
      · rintro _ _ _ _ ⟨⟩
    · exact nodeFaults_container_of_length (by rwa [Tree.length_applyAll]) c
  | params =>
    refine Eq.trans ?_ h
    exact congrArg₂ (fun misplaced members => if c.dialect.typescript then
        misplaced + if c.constructor then 0 else members else 0) (Tree.misplacedParams_applyAll plan ps false)
      (Tree.length_filter_applyAll (Tree.declaresMember_apply plan) ps)
  | function info =>
    obtain _ | ⟨_, _ | ⟨_, _ | ⟨_, _ | ⟨params, _ | ⟨_, _ | ⟨body, _ | ⟨_, _⟩⟩⟩⟩⟩⟩⟩ := ps
    any_goals rfl
    exact (congrArg₂ (fun strict simple => faultWhen (strict && !simple)) (Tree.opensStrict_apply plan body)
      (Tree.hasSimpleParams_apply plan params)).trans h
  | arrow async concise =>
    obtain _ | ⟨_, _ | ⟨params, _ | ⟨_, _ | ⟨body, _ | ⟨_, _⟩⟩⟩⟩⟩ := ps
    any_goals rfl
    exact (congrArg₂ (fun strict simple => faultWhen (strict && !simple)) (Tree.opensStrict_apply plan body)
      (Tree.hasSimpleParams_apply plan params)).trans h
  | enum const ambient =>
    rw [nodeFaults_enum] at h
    rw [Form.settle, nodeFaults_enum, Tree.enumMembers_applyAll,
      Tree.missingValues_applyAll plan _ false false id h]
    · rfl
    · rintro _ _ _ ⟨⟩
    · rintro _ _ _ _ ⟨⟩
  | typeAlias _ | «interface» _ | typeParam _ =>
    cases ps with
    | nil => rfl
    | cons t ts =>
      rw [nodeFaults_type (by simp)] at h
      exact (nodeFaults_type (by simp [Form.settle]) c _ _).trans (typeNameFaults_apply hplan h)
  | importEquals typeOnly =>
    obtain _ | ⟨_, _ | ⟨r, _ | ⟨_, _⟩⟩⟩ := ps
    any_goals rfl
    exact (congrArg (fun b => faultWhen (typeOnly && !b)) (Tree.isExternal_apply plan r)).trans h
  | property info | bindingProperty _ _ => obtain _ | ⟨_, _ | ⟨_, _ | ⟨_, _⟩⟩⟩ := ps <;> rfl
  | _ => exact h

end Context

/-! ## Faults of trees -/

namespace Tree

variable {plan : ModulePlan}

/-- What a plan writes in the place of a literal is no fault. -/
theorem faults_replace (hplan : plan.WritesOrdinary) {c : Context} (site : Nat) {t : Tree}
    (ht : t.faults c = 0) : (plan.replace site t).faults c = 0 := by
  unfold ModulePlan.replace
  cases hsite : plan.sites.get? site with
  | none => exact ht
  | some key => exact (hplan.sites site key hsite).referenceFaults_eq_zero c

mutual

/-- **A valid tree stays valid under a plan**, but for names that strict code deletes and that were
literals. -/
theorem faults_apply (hplan : plan.WritesOrdinary) :
    ∀ {t : Tree} {c : Context}, t.Shaped → t.faults c = 0 → (t.apply plan).faults c = t.deletions plan c
  | .node f ps, c, hshaped, h => by
    obtain ⟨hnode, hparts⟩ := Nat.add_eq_zero_iff.1 h
    rw [apply_node, faults, deletions, Context.nodeFaults_apply hplan c hshaped.2 hnode,
      faultsOf_applyAll hplan hshaped.2 hparts]
  | .binding n, c, _, h => by
    rcases hplan.renamed n with heq | hordinary
    · rwa [apply, heq]
    · exact hordinary.bindingFaults_eq_zero c
  | .reference n, c, _, h => by
    rcases hplan.renamed n with heq | hordinary
    · rwa [apply, heq]
    · exact hordinary.referenceFaults_eq_zero c
  | .string _, _, _, h | .number _, _, _, h => faults_replace hplan _ h
  | .absent, _, _, h | .name _, _, _, h | .markupName _, _, _, h | .label _, _, _, h
  | .privateName _, _, _, h | .quoted _, _, _, h => h

theorem faultsOf_applyAll (hplan : plan.WritesOrdinary) {f : Form} {all : List Tree} :
    ∀ {ts : List Tree} {c : Context} {i : Nat}, AllShaped ts → faultsOf f all c i ts = 0 →
      faultsOf (f.settle (applyAll plan all)) (applyAll plan all) c i (applyAll plan ts) =
        deletionsOf plan f all c i ts
  | [], _, _, _, _ => rfl
  | t :: ts, c, i, hshaped, h => by
    obtain ⟨ht, hts⟩ := Nat.add_eq_zero_iff.1 h
    rw [applyAll_cons, faultsOf, deletionsOf, Context.inside_apply, faults_apply hplan hshaped.1 ht,
      faultsOf_applyAll hplan hshaped.2 hts]

end

end Tree

end Abridge
