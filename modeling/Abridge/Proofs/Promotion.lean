import Abridge.Proofs.Ways
import Abridge.Run.OnDisk
import Mathlib.Data.List.Forall2

/-!
# A commit that fails

Artifacts get their names one after the other, and when one of them cannot, those before it are removed.
A name that stood for something else before is not given back: what was there is lost.  So a failed commit
leaves the disk as it was exactly when nothing was in the places that artifacts had got by then.

Removing goes by path.  A path that has led to a location leads there or nowhere afterwards, since
promotion takes ways away (a link that is replaced) and adds none; so nothing else is removed.

## What is here

* `Disk.landings`: the locations that artifacts get before a failure.
* `Disk.promote_failed`: how a failed promotion ends, as a run of the loop.
* `Disk.commit_failed`: what is on the disk after a failed commit.
* `Disk.commit_loses_artifact`: an artifact of an earlier run can be lost.
-/

set_option autoImplicit false

namespace Abridge

namespace Disk

/-! ## Promotion -/

/-- The locations that staged artifacts get, up to the first that cannot have its name. -/
def promotions (disk : Disk) : List Artifact → List Location
  | [] => []
  | a :: rest =>
    match disk.aim a.path, disk.replace a.path a.text.toUTF8 with
    | .ok (.name parent name _), .ok disk => (parent ++ [name]) :: disk.promotions rest
    | _, _ => []

/-- The locations that artifacts get in a commit: none when staging fails. -/
def landings (disk : Disk) (staged : List Artifact) : List Location :=
  match disk.stagingFailure staged with
  | some _ => []
  | none => disk.promotions staged

theorem promotions_cons_ok {disk disk' : Disk} {a : Artifact} {rest : List Artifact}
    {location : Location} (hnames : disk.Names a.path location)
    (hreplace : disk.replace a.path a.text.toUTF8 = .ok disk') :
    disk.promotions (a :: rest) = location :: disk'.promotions rest := by
  obtain ⟨parent, name, haim, rfl⟩ := hnames
  rw [promotions, haim, hreplace]

theorem promotions_cons_error {disk : Disk} {a : Artifact} {rest : List Artifact} {e : DiskError}
    (hreplace : disk.replace a.path a.text.toUTF8 = .error e) : disk.promotions (a :: rest) = [] := by
  rw [promotions, hreplace]
  split
  · rename_i h
    cases h
  · rfl

variable {before : Disk}

/-- **A failed promotion** has put artifacts in their places, up to the failure, and then removes them by
their paths. -/
theorem promote_failed {staged : List Artifact} : ∀ {disk disk' : Disk} {promoted : List Path}
    {locations : List Location} {failure : Failure}, before.Differs disk locations →
      List.Forall₂ before.Names promoted locations →
      disk.promote promoted staged = (disk', some failure) →
      ∃ put paths, before.Differs put (locations ++ disk.promotions staged) ∧
        List.Forall₂ before.Names paths (locations ++ disk.promotions staged) ∧
        disk' = put.removeAll paths := by
  induction staged with
  | nil => intro _ _ _ _ _ _ _ h; cases h
  | cons a rest ih =>
    intro disk disk' promoted locations failure hdiffers hnames h
    rw [promote] at h
    cases hreplace : disk.replace a.path a.text.toUTF8 with
    | error e =>
      rw [hreplace] at h
      cases h
      rw [promotions_cons_error hreplace, List.append_nil]
      exact ⟨disk, promoted, hdiffers, hnames, rfl⟩
    | ok put =>
      rw [hreplace] at h
      obtain ⟨location, hlocation, hentry, rfl⟩ := replace_eq_ok hreplace
      rw [promotions_cons_ok hlocation hreplace, List.append_cons]
      refine ih (hdiffers.set hlocation.ne_nil hentry _) ?_ h
      exact List.rel_append hnames (.cons (hlocation.mono hdiffers.leads) .nil)

/-! ## Removing -/

theorem removeAll_cons (disk : Disk) (p : Path) (paths : List Path) :
    disk.removeAll (p :: paths) = ((disk.remove p).toOption.getD disk).removeAll paths := rfl

/-- What removing one artifact does: nothing, or its file goes. -/
theorem removeOne_cases {disk : Disk} {p : Path} {location : Location} (hleads : disk.Leads before)
    (hnames : before.Names p location) :
    (disk.remove p).toOption.getD disk = disk ∨
      (disk.remove p).toOption.getD disk = disk.unset location := by
  cases hremove : disk.remove p with
  | error e => exact .inl rfl
  | ok disk' =>
    obtain ⟨location', hnames', -, -, rfl⟩ := remove_eq_ok hremove
    rw [hnames.unique (hnames'.mono hleads)]
    exact .inr rfl

theorem removeOne_differs {disk : Disk} {p : Path} {location : Location} {locations : List Location}
    (hdiffers : before.Differs disk locations) (hname : before.Names p location)
    (hmem : location ∈ locations) :
    before.Differs ((disk.remove p).toOption.getD disk) locations := by
  rcases removeOne_cases hdiffers.leads hname with heq | heq
  · rwa [heq]
  · rw [heq]
    exact hdiffers.unset hname.ne_nil hmem

theorem removeAll_differs {locations : List Location} {paths : List Path} :
    ∀ {disk : Disk} {locations' : List Location}, before.Differs disk locations →
      List.Forall₂ before.Names paths locations' → locations' ⊆ locations →
      before.Differs (disk.removeAll paths) locations := by
  induction paths with
  | nil => intro disk _ hdiffers _ _; exact hdiffers
  | cons p paths ih =>
    intro disk locations' hdiffers hnames hsub
    cases hnames with
    | cons hname hnames =>
      rw [removeAll_cons]
      obtain ⟨hmem, hsub⟩ := List.cons_subset.1 hsub
      exact ih (removeOne_differs hdiffers hname hmem) hnames hsub

/-- Where nothing is, nothing comes by removing. -/
theorem removeAll_eq_none {location : Location} {paths : List Path} :
    ∀ {disk : Disk}, disk.at? location = none → (disk.removeAll paths).at? location = none := by
  induction paths with
  | nil => exact id
  | cons p paths ih =>
    intro disk hnone
    rw [removeAll_cons]
    refine ih ?_
    cases hremove : disk.remove p with
    | error e => exact hnone
    | ok disk' =>
      obtain ⟨location', hnames, -, -, rfl⟩ := remove_eq_ok hremove
      change (disk.unset location').at? location = none
      rw [at?_unset disk hnames.ne_nil, hnone, ite_self]

/-- Artifacts are removed where their places were no ways before. -/
theorem removeAll_removes {locations : List Location}
    (hplain : ∀ location ∈ locations, before.Plain location) {paths : List Path} :
    ∀ {disk : Disk} {locations' : List Location}, before.Differs disk locations →
      List.Forall₂ before.Names paths locations' → locations' ⊆ locations →
      ∀ location ∈ locations', (disk.removeAll paths).at? location = none := by
  induction paths with
  | nil =>
    intro disk _ _ hnames _ location hlocation
    cases hnames
    exact absurd hlocation List.not_mem_nil
  | cons p paths ih =>
    intro disk locations' hdiffers hnames hsub location hlocation
    cases hnames with
    | @cons _ first _ rest hname hnames =>
      obtain ⟨hmem, hsub⟩ := List.cons_subset.1 hsub
      have hname' := hname.mono (hdiffers.sameWays hplain).1
      rw [removeAll_cons]
      have hgone : ((disk.remove p).toOption.getD disk).at? first = none := by
        cases hentry : disk.at? first with
        | none => rwa [hname'.remove_eq_error hentry]
        | some entry =>
          cases entry with
          | directory => exact absurd hentry (hdiffers.plain first hmem).1
          | link target => exact absurd hentry ((hdiffers.plain first hmem).2 target)
          | file contents =>
            rw [hname'.remove_eq hentry]
            exact (at?_unset disk hname.ne_nil first).trans (if_pos rfl)
      rcases List.mem_cons.1 hlocation with rfl | hlocation
      · exact removeAll_eq_none hgone
      · exact ih (removeOne_differs hdiffers hname hmem) hnames hsub location hlocation

/-! ## Commits -/

/-- **A failed commit leaves the disk as it was exactly when nothing was where artifacts landed.**
Whatever happens, every other location has what it had.  No artifact stays behind unless one of them took
the place of a link. -/
theorem commit_failed {disk disk' : Disk} {staged : List Artifact} {failure : Failure}
    (h : disk.commit staged = (disk', some failure)) :
    (∀ location, location ∉ disk.landings staged → disk'.at? location = disk.at? location) ∧
      ((∀ location ∈ disk.landings staged, ∀ target, disk.at? location ≠ some (.link target)) →
        ∀ location ∈ disk.landings staged, disk'.at? location = none) ∧
      (disk.Same disk' ↔ ∀ location ∈ disk.landings staged, disk.at? location = none) := by
  rw [commit] at h
  cases hstaging : disk.stagingFailure staged with
  | some e =>
    rw [hstaging] at h
    cases h
    rw [landings, hstaging]
    exact ⟨fun _ _ => rfl, fun _ _ hl => absurd hl List.not_mem_nil,
      fun _ _ hl => absurd hl List.not_mem_nil, fun _ => .refl disk⟩
  | none =>
    rw [hstaging] at h
    rw [landings, hstaging]
    obtain ⟨put, paths, hput, hnames, rfl⟩ := promote_failed (.refl disk) .nil h
    rw [List.nil_append] at hput hnames
    have hdiffers := removeAll_differs hput hnames (List.Subset.refl _)
    have hgone : (∀ location ∈ disk.promotions staged, disk.Plain location) →
        ∀ location ∈ disk.promotions staged, (put.removeAll paths).at? location = none :=
      fun hplain => removeAll_removes hplain hput hnames (List.Subset.refl _)
    refine ⟨hdiffers.off, ?_, fun hsame => ?_, fun hnone => ?_⟩
    · exact fun hlinks => hgone fun l hl => ⟨hdiffers.notDirectory l hl, hlinks l hl⟩
    · -- What is the same as after the commit is no link, so all artifacts were removed.
      have hplain : ∀ location ∈ disk.promotions staged, disk.Plain location := by
        intro l hl
        have hplain := hdiffers.plain l hl
        rwa [Plain, hsame.entries] at hplain
      intro l hl
      rw [← hsame.entries, hgone hplain l hl]
    · refine hdiffers.same fun l hl => ?_
      rw [hgone (fun l hl => plain_of_eq_none (hnone l hl)) l hl, hnone l hl]

/-! ## An artifact of an earlier run -/

theorem stagingFailure_eq_none {disk : Disk} {staged : List Artifact}
    (h : ∀ a ∈ staged, ∃ location, disk.openDirectory a.path.directory = .ok location) :
    disk.stagingFailure staged = none := by
  refine List.findSome?_eq_none_iff.2 fun a ha => ?_
  obtain ⟨location, hopen⟩ := h a ha
  rw [hopen]

/-- What a run of `a.js` writes. -/
theorem artifacts_single {m : ModuleOutput} (hpath : m.path = ⟨"a.js"⟩) (hmap : m.positionMap = none)
    (manifest : Manifest) :
    artifacts {} [m] manifest none =
      [⟨⟨"a.optimized.js"⟩, m.after⟩, ⟨⟨"a.manifest.json"⟩, manifest.text⟩] := by
  have hoptimized : ({} : Output).optimizedPath ⟨"a.js"⟩ = ⟨"a.optimized.js"⟩ := by decide +kernel
  have hmanifest : ({} : Output).manifestPath ⟨"a.js"⟩ = ⟨"a.manifest.json"⟩ := by decide +kernel
  simp [artifacts, hpath, hmap, hoptimized, hmanifest]

/-- Two artifacts in the working directory, of which the second cannot have its name: the first is put in
place and removed. -/
theorem commit_pair_failed {disk : Disk} {first second : String}
    (hhere : disk.at? disk.workingDirectory = some .directory)
    (hfirst : isSingleName first = true ∧ Path.directory ⟨first⟩ = ⟨"."⟩)
    (hsecond : isSingleName second = true ∧ Path.directory ⟨second⟩ = ⟨"."⟩)
    (hentry : disk.at? (disk.workingDirectory ++ [first]) ≠ some .directory)
    (hentry' : disk.at? (disk.workingDirectory ++ [second]) = some .directory) (text text' : String) :
    disk.commit [⟨⟨first⟩, text⟩, ⟨⟨second⟩, text'⟩] =
      ((disk.set (disk.workingDirectory ++ [first]) (.file text.toUTF8)).unset
          (disk.workingDirectory ++ [first]),
        some (.disk ⟨second⟩ .isDirectory)) := by
  have hname := names_of_isSingleName disk hfirst.1
  have hname' := names_of_isSingleName (disk.set (disk.workingDirectory ++ [first])
    (.file text.toUTF8)) hfirst.1
  have hnext := names_of_isSingleName (disk.set (disk.workingDirectory ++ [first])
    (.file text.toUTF8)) hsecond.1
  have hne : disk.workingDirectory ++ [first] ≠ disk.workingDirectory ++ [second] :=
    fun heq => hentry (heq ▸ hentry')
  have hstays : (disk.set (disk.workingDirectory ++ [first]) (.file text.toUTF8)).at?
      (disk.workingDirectory ++ [second]) = some .directory := by
    rw [at?_set disk hname.ne_nil, if_neg hne, hentry']
  have hfile : (disk.set (disk.workingDirectory ++ [first]) (.file text.toUTF8)).at?
      (disk.workingDirectory ++ [first]) = some (.file text.toUTF8) := by
    rw [at?_set disk hname.ne_nil, if_pos rfl]
  have hstaging : disk.stagingFailure [⟨⟨first⟩, text⟩, ⟨⟨second⟩, text'⟩] = none := by
    refine stagingFailure_eq_none (List.forall_mem_cons.2 ⟨?_, List.forall_mem_singleton.2 ?_⟩)
    · exact ⟨_, hfirst.2.symm ▸ openDirectory_here disk hhere⟩
    · exact ⟨_, hsecond.2.symm ▸ openDirectory_here disk hhere⟩
  rw [commit, hstaging]
  dsimp only
  rw [promote, hname.replace_eq hentry]
  dsimp only
  rw [promote, hnext.replace_eq_error hstays]
  dsimp only
  rw [List.nil_append, removeAll_cons, hname'.remove_eq hfile]
  rfl

/-- A disk with an artifact of an earlier run of `a.js`, and a directory where its manifest goes. -/
def withOldArtifact : Disk :=
  { entries := [(["a.optimized.js"], .file "old".toUTF8), (["a.manifest.json"], .directory)] }

theorem commit_withOldArtifact (text text' : String) :
    withOldArtifact.commit [⟨⟨"a.optimized.js"⟩, text⟩, ⟨⟨"a.manifest.json"⟩, text'⟩] =
      ((withOldArtifact.set ["a.optimized.js"] (.file text.toUTF8)).unset ["a.optimized.js"],
        some (.disk ⟨"a.manifest.json"⟩ .isDirectory)) := by
  have hold : withOldArtifact.at? ["a.optimized.js"] = some (.file "old".toUTF8) := rfl
  refine commit_pair_failed rfl (by decide +kernel) (by decide +kernel) ?_ rfl text text'
  exact fun h => Entry.noConfusion (Option.some_inj.1 (hold.symm.trans h))

/-- What a failed commit of two artifacts leaves, one of which took the place of an older one. -/
theorem commit_failed_withOldArtifact :
    ∃ disk' failure,
      withOldArtifact.commit [⟨⟨"a.optimized.js"⟩, "new"⟩, ⟨⟨"a.manifest.json"⟩, "\x7b\x7d"⟩] =
        (disk', some failure) ∧
      ∀ location, location ∉ withOldArtifact.landings
          [⟨⟨"a.optimized.js"⟩, "new"⟩, ⟨⟨"a.manifest.json"⟩, "\x7b\x7d"⟩] →
        disk'.at? location = withOldArtifact.at? location :=
  ⟨_, _, commit_withOldArtifact _ _, (commit_failed (commit_withOldArtifact _ _)).1⟩

/-- **An artifact of an earlier run can be lost** when a run of its module fails to commit, whatever the
run has made of the module. -/
theorem commit_loses_artifact :
    withOldArtifact.at? ["a.optimized.js"] = some (.file "old".toUTF8) ∧
      ∀ (m : ModuleOutput) (manifest : Manifest), m.path = ⟨"a.js"⟩ → m.positionMap = none →
        ∃ disk' failure,
          withOldArtifact.commit (artifacts {} [m] manifest none) = (disk', some failure) ∧
            disk'.at? ["a.optimized.js"] = none := by
  refine ⟨rfl, fun m manifest hpath hmap => ?_⟩
  rw [artifacts_single hpath hmap]
  refine ⟨_, _, commit_withOldArtifact _ _, ?_⟩
  exact (at?_unset _ (List.cons_ne_nil _ _) _).trans (if_pos rfl)

end Disk

end Abridge
