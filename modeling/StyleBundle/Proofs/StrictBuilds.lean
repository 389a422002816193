import StyleBundle.Command.Build
import StyleBundle.Proofs.Verdicts

/-!
# Strict builds

A strict build writes its bundle exactly when all imports that the entry leads to are served. Else
it fails with all failures before it touches a file.
-/

namespace StyleBundle

/-! ## Reading what was written -/

theorem fromUTF8?_toUTF8 (text : String) : String.fromUTF8? text.toUTF8 = some text := by
  unfold String.fromUTF8?
  rw [String.toUTF8_eq_toByteArray, dif_pos text.isValidUTF8]
  rfl

namespace FileTree

variable {t t' : FileTree} {l : Location} {n : FileNode} {path text : String}

theorem node?_setNode_self (hl : l ≠ []) : (t.setNode l n).node? l = some n := by
  rw [node?, if_neg (by simpa using hl), setNode, Table.find?_insert, if_pos rfl]

theorem node?_setNode_of_ne {l' : Location} (h : l ≠ l') :
    (t.setNode l n).node? l' = t.node? l' := by
  rw [node?, node?, setNode, Table.find?_insert, if_neg h]

theorem ne_nil_of_node? (h : t.node? l ≠ some .directory) : l ≠ [] := by
  rintro rfl
  exact h rfl

/-- A path leads through directories only, so it does not matter what is put where it ends when no
directory is there. -/
theorem follow_setNode {l₀ : Location} {parts : List String} (h : t.follow l₀ parts = .ok l)
    (hl : t.node? l ≠ some .directory) : (t.setNode l n).follow l₀ parts = .ok l := by
  induction parts generalizing l₀ with
  | nil => exact h
  | cons part parts ih =>
    rw [follow] at h
    split at h
    · cases h
    · rename_i hdirectory
      have hne : l ≠ l₀ := by
        rintro rfl
        exact hl hdirectory
      rw [follow, node?_setNode_of_ne hne, hdirectory]
      exact ih h
    · cases h

theorem locate_setNode (h : t.locate path = .ok l) (hl : t.node? l ≠ some .directory) :
    (t.setNode l n).locate path = .ok l := by
  unfold locate at h ⊢
  split at h
  · cases h
  · next hpath =>
    rw [if_neg hpath]
    exact follow_setNode h hl

theorem read_write (h : t.write path text = .ok t') : t'.read path = .ok text := by
  rw [write] at h
  rcases hl : t.locate path with e | l
  · rw [hl] at h
    cases h
  · rw [hl] at h
    have hwritten : t.node? l ≠ some .directory ∧ t.setNode l (.file text.toUTF8) = t' := by
      simp only [bind, Except.bind] at h
      split at h
      · cases h
      · next hnode => exact ⟨hnode, Except.ok.inj h⟩
    obtain ⟨hnode, rfl⟩ := hwritten
    rw [read, locate_setNode hl hnode]
    show (t.setNode l _).readAt l = .ok text
    rw [readAt, node?_setNode_self (ne_nil_of_node? hnode)]
    dsimp only
    rw [fromUTF8?_toUTF8]

end FileTree

/-! ## Work on files -/

namespace FileWork

variable {α β : Type} {x : FileWork α} {f : α → FileWork β} {t t' : FileTree} {b : β}

theorem bind_eq_ok_iff : (x >>= f) t = (.ok b, t') ↔
    ∃ a u, x t = (.ok a, u) ∧ f a u = (.ok b, t') := by
  have hbind : (x >>= f) t = match x t with
      | (.ok a, u) => f a u
      | (.error e, u) => (.error e, u) := by
    show ExceptT.bindCont f (x t).1 (x t).2 = _
    rcases x t with ⟨e | a, u⟩ <;> rfl
  rw [hbind]
  rcases x t with ⟨e | a, u⟩
  · constructor
    · intro h
      cases h
    · rintro ⟨_, _, h, -⟩
      cases h
  · constructor
    · exact fun h => ⟨a, u, rfl, h⟩
    · rintro ⟨_, _, h, hf⟩
      cases h
      exact hf

theorem write_eq_ok_iff {path text : String} {a : Unit} :
    write path text t = (.ok a, t') ↔ t.write path text = .ok t' := by
  unfold write
  cases t.write path text with
  | error e =>
    constructor <;> intro h <;> cases h
  | ok u =>
    constructor <;> intro h <;> cases h <;> rfl

end FileWork

namespace Settings

variable {s : Settings} {t t' : FileTree} {text out : String} {res : Resolution}
  {delay : ModulePath → Nat}

/-- The build leaves the text in the output file, or on standard output and the files as they
were. -/
def Delivers (s : Settings) (t : FileTree) (text : String) (b : Built) : Prop :=
  match s.output with
  | none => b.stdout = text ∧ b.tree = t
  | some path => b.stdout = "" ∧ b.tree.read path = .ok text

theorem delivers_of_deliver {warnings : List ImportError} (h : s.deliver text t = (.ok out, t')) :
    s.Delivers t text ⟨t', out, warnings⟩ := by
  unfold deliver at h
  unfold Delivers
  cases hout : s.output with
  | none =>
    rw [hout] at h
    cases h
    exact ⟨rfl, rfl⟩
  | some path =>
    rw [hout] at h
    obtain ⟨_, _, -, h⟩ := FileWork.bind_eq_ok_iff.mp h
    obtain ⟨_, _, hwrite, h⟩ := FileWork.bind_eq_ok_iff.mp h
    cases h
    exact ⟨rfl, FileTree.read_write (FileWork.write_eq_ok_iff.mp hwrite)⟩

theorem publish_of_complete (hs : s.strict = true) (h : res.complete = .ok res) (t : FileTree) :
    s.publish res t = s.deliver (res.bundle s.exports) t := by
  rw [publish, if_pos hs, h]
  rfl

theorem publish_of_incomplete (hs : s.strict = true) {e : ResolveError}
    (h : res.complete = .error e) (t : FileTree) :
    s.publish res t = (.error (.resolve e), t) := by
  rw [publish, if_pos hs, h]
  rfl

theorem attempt_of_error {e : ResolveError} (h : (s.resolve t delay).answer = .error e) :
    s.attempt t delay = (.failed (.resolve e), t) := by
  rw [attempt, h]

theorem attempt_of_publish (h : (s.resolve t delay).answer = .ok (.finished res))
    (hp : s.publish res t = (.ok out, t')) :
    s.attempt t delay = (.built ⟨t', out, res.errors⟩, t') := by
  rw [attempt, h]
  dsimp only
  rw [hp]

theorem attempt_of_refused (h : (s.resolve t delay).answer = .ok (.finished res))
    {e : CommandError} (hp : s.publish res t = (.error e, t')) :
    s.attempt t delay = (.failed e, t') := by
  rw [attempt, h]
  dsimp only
  rw [hp]

end Settings

/-! ## Verdicts -/

/-- The verdict on a resolution is that of its library, and a failure holds all that failed. -/
structure Resolution.Judged (lib : Library) (entry : Document) (res : Resolution) : Prop where
  isComplete_iff : res.isComplete = true ↔ lib.Satisfies entry
  complete_iff : res.complete = .ok res ↔ lib.Satisfies entry
  refused : ¬lib.Satisfies entry →
    res.errors ≠ [] ∧ res.complete = .error (.unresolved res.errors) ∧
    (ResolveError.unresolved res.errors).diagnostic.message =
      Nat.repr res.errors.length ++ " import failure(s) during resolution"

theorem Resolution.judged_of_errors_eq_nil_iff {lib : Library} {entry : Document}
    {res : Resolution} (h : res.errors = [] ↔ lib.Satisfies entry) : res.Judged lib entry where
  isComplete_iff := Resolution.isComplete_iff.trans h
  complete_iff := by
    refine ⟨fun hc => ?_, fun hs => res.complete_of_errors_eq_nil (h.mpr hs)⟩
    by_contra hs
    rw [res.complete_of_errors_ne_nil (mt h.mp hs)] at hc
    cases hc
  refused hs := ⟨mt h.mp hs, res.complete_of_errors_ne_nil (mt h.mp hs), rfl⟩

/-- The sheets left of the modules of a resolution make up its text, and no directive is left in
them. -/
def Resolution.LeavesPlain (lib : Library) (res : Resolution) : Prop :=
  res.source = String.join ((lib.documents res.order).map fun d => (lib.resolved d).print) ∧
  ∀ d ∈ lib.documents res.order, ∀ r ∈ (lib.resolved d).rules, r.isPlain

/-- What a strict build of the files `t` does when the answer for each module takes the given
time. -/
structure Settings.BuildsStrictly (s : Settings) (t : FileTree) (delay : ModulePath → Nat) :
    Prop where
  /-- Without its entry the build fails and leaves the files alone. -/
  failed : ∀ e, (s.resolve t delay).answer = .error e →
    s.attempt t delay = (.failed (.resolve e), t)
  /-- When all imports are served the bundle is written, provided that it can be written. Else the
  build fails with all failures and leaves the files alone. -/
  finished : ∀ res, (s.resolve t delay).answer = .ok (.finished res) →
    ∃ entry, (t.library s.root).document? (Resolver.entryPath s.entry) = some entry ∧
      ((t.library s.root).Satisfies entry →
        res.LeavesPlain (t.library s.root) ∧
        ∀ out t', s.deliver (res.bundle s.exports) t = (.ok out, t') →
          ∃ b, s.attempt t delay = (.built b, b.tree) ∧ b.warnings = [] ∧
            s.Delivers t (res.bundle s.exports) b) ∧
      (¬(t.library s.root).Satisfies entry →
        s.attempt t delay = (.failed (.resolve (.unresolved res.errors)), t))

namespace Settings

variable {s : Settings} {t : FileTree} {res : Resolution} {delay : ModulePath → Nat}

theorem leavesPlain_of_resolve (h : (s.resolve t delay).answer = .ok (.finished res))
    (herrors : res.errors = []) : res.LeavesPlain (t.library s.root) := by
  have hrereads : res.Rereads ((t.library s.root).withDelay delay) :=
    Resolver.resolveEntry_rereads h herrors
  have hsource := hrereads.source
  have hplain := hrereads.plain
  simp only [Library.resolved_withDelay] at hsource hplain
  exact ⟨hsource, hplain⟩

theorem buildsStrictly (hs : s.strict = true) (t : FileTree) (delay : ModulePath → Nat) :
    s.BuildsStrictly t delay where
  failed _ h := attempt_of_error h
  finished res h := by
    obtain ⟨entry, -, -, hdoc, -⟩ := Resolver.finished_cases h
    have hiff : res.errors = [] ↔ (t.library s.root).Satisfies entry :=
      (Resolver.Resolves.entry hdoc).errors_eq_nil_iff h
    refine ⟨entry, hdoc, fun hsatisfies => ?_, fun hnot => ?_⟩
    · have herrors := hiff.mpr hsatisfies
      refine ⟨leavesPlain_of_resolve h herrors, fun out t' hdeliver => ?_⟩
      have hpublish := publish_of_complete hs (res.complete_of_errors_eq_nil herrors) t
      exact ⟨_, attempt_of_publish h (hpublish.trans hdeliver), herrors,
        delivers_of_deliver hdeliver⟩
    · exact attempt_of_refused h (publish_of_incomplete hs
        (res.complete_of_errors_ne_nil (mt hiff.mp hnot)) t)

end Settings

/-- Strict mode is exact. A resolution is complete exactly when the library serves all documents
that the entry leads to, whatever the delays, and otherwise is refused with all failures. A strict
build writes its bundle exactly then, and otherwise, or without its entry, leaves the files
alone. -/
theorem strict_mode_exact :
    (∀ (r : Resolver) (entry : Document) (clock : Nat) (initial : List Fetched) (run : Run)
      (res : Resolution), r.Resolves entry clock initial run → run.answer = .ok (.finished res) →
      res.Judged r.library entry ∧
      ∀ delay clock' initial' run' res', (r.withDelay delay).Resolves entry clock' initial' run' →
        run'.answer = .ok (.finished res') → res'.isComplete = res.isComplete) ∧
    ∀ (s : Settings) (t : FileTree) (delay : ModulePath → Nat), s.strict = true →
      s.BuildsStrictly t delay := by
  refine ⟨fun r entry clock initial run res h hres => ?_, fun s t delay hs =>
    s.buildsStrictly hs t delay⟩
  have hiff := h.errors_eq_nil_iff hres
  refine ⟨Resolution.judged_of_errors_eq_nil_iff hiff, fun delay _ _ _ res' h' hres' => ?_⟩
  have hiff' : res'.errors = [] ↔ r.library.Satisfies entry := h'.errors_eq_nil_iff hres'
  rw [Bool.eq_iff_iff, Resolution.isComplete_iff, Resolution.isComplete_iff, hiff, hiff']

/-! ## An example -/

namespace Resolver

def dyedTree : FileTree where
  nodes := .ofList [
    (["e"], .file ":import(\"m\")\x7ba:b\x7d.x\x7bcolor:a\x7d".toUTF8),
    (["m"], .file ":export\x7bb:red\x7d.y\x7b\x7d".toUTF8)]

def dyedSettings : Settings where
  entry := "e"
  root := ""
  output := some "out/bundle.css"
  strict := true
  exports := true

theorem resolve_dyedSettings :
    (dyedSettings.resolve dyedTree fun _ => 0).answer = .ok (.finished dyedResolution) :=
  @answer_eq_of_within _ _ 3 _ (by decide +kernel)

theorem strict_mode_exact_dyed :
    (∃ entry, dyed.library.document? (entryPath "e") = some entry ∧
      dyed.library.Satisfies entry) ∧
    ∃ b, dyedSettings.attempt dyedTree (fun _ => 0) = (.built b, b.tree) ∧ b.warnings = [] ∧
      b.tree.read "out/bundle.css" = .ok ".y\x7b\x7d.x\x7bcolor:red\x7d" := by
  obtain ⟨hjudged, hbuilds⟩ := strict_mode_exact
  constructor
  · obtain ⟨entry, -, -, hdoc, -⟩ := finished_cases answer_dyed
    have h := (hjudged dyed entry _ _ _ _ (.entry hdoc) answer_dyed).1
    exact ⟨entry, hdoc, h.isComplete_iff.mp rfl⟩
  · obtain ⟨entry, hdoc, hserved, hrefused⟩ :=
      (hbuilds dyedSettings dyedTree (fun _ => 0) rfl).finished _ resolve_dyedSettings
    have hdeliver : (dyedSettings.deliver (dyedResolution.bundle true) dyedTree).1 = .ok "" := by
      decide +kernel
    have hsatisfies : (dyedTree.library "").Satisfies entry :=
      ((Resolves.entry hdoc).errors_eq_nil_iff resolve_dyedSettings).mp rfl
    obtain ⟨b, hb, hwarnings, -, hread⟩ :=
      (hserved hsatisfies).2 "" _ (Prod.ext hdeliver rfl)
    exact ⟨b, hb, hwarnings, hread⟩

end Resolver

end StyleBundle
