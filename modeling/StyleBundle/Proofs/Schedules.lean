import StyleBundle.Proofs.AssemblyOrder
import StyleBundle.Proofs.SessionLaws

/-!
# A context under any schedule

Imports that go on side by side call their context in whatever order the answers come. Two things
are asked of such a sequence of calls: a load is ended only while it is under way, and each claim
has a key of its own. Then every key that the context holds has a claim behind it and every claim
has its key in the context, unless its module has been abandoned since: the claims that still stand
are the keys that wait for a slot together with the keys that are recorded. All else about slots,
keys and sources follows call by call.
-/

namespace StyleBundle

/-! ## Calls -/

/-- One call on a context. -/
inductive Call where
  | claim (path : ModulePath) (key : TraceKey)
  | commit (path : ModulePath) (source : String) (exports : ExportTable)
  | abandon (path : ModulePath) (error : ImportError)
  | report (error : ImportError)
  | recordEntry (path : ModulePath) (source : String)
  deriving DecidableEq

namespace Call

def apply (c : Context) : Call → Context
  | claim p k => (c.claim p k).2
  | commit p source exports => c.commit p source exports
  | abandon p e => c.abandon p e
  | report e => c.report e
  | recordEntry p source => c.recordEntry p source

def ended? : Call → Option ModulePath
  | commit p .. | abandon p _ => some p
  | _ => none

def key? : Call → Option TraceKey
  | claim _ k => some k
  | _ => none

end Call

namespace Context

def after (c : Context) (calls : List Call) : Context :=
  calls.foldl Call.apply c

def isPending (c : Context) (p : ModulePath) : Bool :=
  match c.slots.find? p with
  | some (.pending ..) => true
  | _ => false

theorem after_append (c : Context) (calls more : List Call) :
    c.after (calls ++ more) = (c.after calls).after more :=
  List.foldl_append

theorem after_concat (c : Context) (calls : List Call) (call : Call) :
    c.after (calls ++ [call]) = call.apply (c.after calls) :=
  after_append c calls [call]

theorem isPending_iff {c : Context} {p : ModulePath} :
    c.isPending p ↔ ∃ load joined, c.slots.find? p = some (.pending load joined) := by
  unfold isPending
  split
  · next load joined h => exact ⟨fun _ => ⟨load, joined, h⟩, fun _ => rfl⟩
  · next h => exact ⟨fun hf => absurd hf Bool.false_ne_true, fun ⟨_, _, hp⟩ => absurd hp (h _ _)⟩

end Context

/-- Calls on a new context that end a load only while it is under way, and in which each claim has a
key of its own, none of them the entry's. -/
structure IsSchedule (calls : List Call) : Prop where
  ends : ∀ i (h : i < calls.length), ∀ p ∈ calls[i].ended?,
    (Context.after {} (calls.take i)).isPending p
  distinct : (calls.filterMap Call.key?).Nodup
  ne_root : ∀ k ∈ calls.filterMap Call.key?, k ≠ .root

/-- The claim was made, and its module has not been abandoned since. -/
def Claimed (calls : List Call) (p : ModulePath) (k : TraceKey) : Prop :=
  ∃ before behind, calls = before ++ .claim p k :: behind ∧ ∀ e, .abandon p e ∉ behind

variable {calls more before behind between : List Call} {call : Call} {c : Context}
  {p q : ModulePath} {k : TraceKey} {e : ImportError}

theorem mem_keys_of_claim (h : .claim p k ∈ calls) : k ∈ calls.filterMap Call.key? :=
  List.mem_filterMap.mpr ⟨_, h, rfl⟩

namespace IsSchedule

theorem front (h : IsSchedule (calls ++ more)) : IsSchedule calls where
  ends i hi p hp := by
    have hlt : i < (calls ++ more).length := by
      rw [List.length_append]
      omega
    have hends := h.ends i hlt p (by rwa [List.getElem_append_left hi])
    rwa [List.take_append_of_le_length (Nat.le_of_lt hi)] at hends
  distinct := by
    have hdistinct := h.distinct
    rw [List.filterMap_append] at hdistinct
    exact hdistinct.of_append_left
  ne_root k hk := h.ne_root k (by simp [hk])

theorem isPending (h : IsSchedule (calls ++ [call])) (hp : p ∈ call.ended?) :
    (Context.after {} calls).isPending p := by
  have hends := h.ends calls.length (by simp) p (by simpa using hp)
  rwa [List.take_left] at hends

theorem claim_ne_root (h : IsSchedule calls) (hk : .claim p k ∈ calls) : k ≠ .root :=
  h.ne_root k (mem_keys_of_claim hk)

theorem claim_notMem (h : IsSchedule (before ++ .claim p k :: behind)) (q : ModulePath) :
    .claim q k ∉ before ∧ .claim q k ∉ behind := by
  have hdistinct := h.distinct
  simp only [List.filterMap_append, List.filterMap_cons, Call.key?] at hdistinct
  obtain ⟨-, hbehind, hfront⟩ := List.nodup_append.mp hdistinct
  exact ⟨fun hq => hfront k (mem_keys_of_claim hq) k List.mem_cons_self rfl,
    fun hq => (List.nodup_cons.mp hbehind).1 (mem_keys_of_claim hq)⟩

theorem claim_unique (h : IsSchedule calls) (hp : .claim p k ∈ calls) (hq : .claim q k ∈ calls) :
    p = q := by
  obtain ⟨before, behind, rfl⟩ := List.append_of_mem hp
  obtain ⟨hbefore, hbehind⟩ := h.claim_notMem q
  obtain hq | hq := List.mem_append.mp hq
  · exact absurd hq hbefore
  · obtain heq | hq := List.mem_cons.mp hq
    · exact (Call.claim.inj heq).1.symm
    · exact absurd hq hbehind

end IsSchedule

/-! ## Claims that stand -/

namespace Claimed

theorem claim_mem (h : Claimed calls p k) : .claim p k ∈ calls := by
  obtain ⟨before, behind, rfl, -⟩ := h
  simp

/-- One more call makes a claim, abandons a module's claims, or changes none. -/
theorem concat_iff : Claimed (calls ++ [call]) p k ↔
    call = .claim p k ∨ Claimed calls p k ∧ ∀ e, call ≠ .abandon p e := by
  constructor
  · rintro ⟨before, behind, heq, hno⟩
    obtain rfl | ⟨behind, last, rfl⟩ := List.eq_nil_or_concat behind
    · exact .inl (List.append_inj_right' heq rfl |> List.singleton_inj.mp)
    · rw [List.concat_eq_append, ← List.cons_append, ← List.append_assoc] at heq
      obtain ⟨rfl, hlast⟩ := List.append_inj' heq rfl
      obtain rfl := List.singleton_inj.mp hlast
      refine .inr ⟨⟨before, behind, rfl, fun e he => hno e (by simp [he])⟩, fun e he => ?_⟩
      exact hno e (by simp [he])
  · rintro (rfl | ⟨⟨before, behind, rfl, hno⟩, hne⟩)
    · exact ⟨calls, [], rfl, by simp⟩
    · refine ⟨before, behind ++ [call], by simp, fun e he => ?_⟩
      obtain he | he := List.mem_append.mp he
      · exact hno e he
      · exact hne e (List.mem_singleton.mp he).symm

theorem iff_of_eq (h : IsSchedule calls) (heq : calls = before ++ .claim p k :: behind) :
    Claimed calls p k ↔ ∀ e, .abandon p e ∉ behind := by
  refine ⟨?_, fun hno => ⟨before, behind, heq, hno⟩⟩
  rintro ⟨before', behind', heq', hno⟩
  subst heq
  obtain ⟨hbefore, hbehind⟩ := h.claim_notMem p
  -- the claim is made once, so both cuts are one
  obtain ⟨m, rfl, hrest⟩ | ⟨m, rfl, hrest⟩ := List.append_eq_append_iff.mp heq'
  · obtain _ | ⟨first, m⟩ := m
    · obtain rfl : behind = behind' := by simpa using hrest
      exact hno
    · obtain ⟨-, rfl⟩ : .claim p k = first ∧ behind = m ++ .claim p k :: behind' := by
        simpa using hrest
      simp at hbehind
  · obtain _ | ⟨first, m⟩ := m
    · obtain rfl : behind' = behind := by simpa using hrest
      exact hno
    · obtain ⟨rfl, -⟩ : .claim p k = first ∧ behind' = m ++ .claim p k :: behind := by
        simpa using hrest
      simp at hbefore

end Claimed

/-! ## What the calls keep -/

namespace Context

variable (c : Context) (p q : ModulePath) (k : TraceKey)

theorem queued_record : (c.record p k).queued q = c.queued q := rfl

theorem queued_setSlot (slot : Slot) :
    (c.setSlot p slot).queued q = if p = q then slot.queued else c.queued q := by
  rw [queued, setSlot_slots, Table.find?_insert]
  split <;> rfl

theorem queued_commit (source : String) (exports : ExportTable) :
    (c.commit p source exports).queued q = if p = q then [] else c.queued q := by
  rw [queued, commit_slots, Table.find?_insert]
  split <;> rfl

theorem queued_abandon (e : ImportError) :
    (c.abandon p e).queued q = if p = q then [] else c.queued q := by
  rw [queued, abandon_slots, Table.find?_erase]
  split <;> rfl

/-- The keys that a context holds are those of the claims that stand, and it has the source of each
module that it has recorded or finished. -/
structure Tallies (c : Context) (calls : List Call) : Prop where
  stands_iff : ∀ p k, Claimed calls p k ↔ k ∈ c.queued p ∨ k ≠ .root ∧ c.traces.find? k = some p
  traced : ∀ p k, c.traces.find? k = some p → c.sources.contains p
  ready : ∀ p exports, c.slots.find? p = some (.ready exports) → c.sources.contains p
  finished : ∀ p k, k ≠ .root → c.traces.find? k = some p →
    ∃ exports, c.slots.find? p = some (.ready exports)

end Context

namespace Context.Tallies

theorem start : Tallies {} [] where
  stands_iff p k := by simp [Claimed, queued]
  traced p k h := by simp at h
  ready p exports h := by simp at h
  finished p k _ h := by simp at h

theorem claim (h : c.Tallies calls) (hs : IsSchedule (calls ++ [.claim p k])) :
    (Call.apply c (.claim p k)).Tallies (calls ++ [.claim p k]) := by
  have hroot : k ≠ .root := hs.claim_ne_root (p := p) (by simp)
  have hfresh : ∀ q, ¬ Claimed calls q k := fun q hq => (hs.claim_notMem q).1 hq.claim_mem
  have hstands : ∀ q l, Claimed (calls ++ [.claim p k]) q l ↔ q = p ∧ l = k ∨ Claimed calls q l := by
    intro q l
    simp [Claimed.concat_iff, eq_comm]
  obtain ⟨hkeys, htraced, hready, hfinished⟩ := h
  simp only [hkeys, not_or, not_and] at hfresh hstands
  simp only [Call.apply, Context.claim]
  split
  · next exports hslot =>
    have hqueued : c.queued p = [] := by simp [queued, hslot, Slot.queued]
    refine ⟨fun q l => (hstands q l).trans ?_, ?_, hready, ?_⟩
    · rw [queued_record, record_traces, Table.find?_insert]
      grind
    · grind
    · grind
  · next load joined hslot =>
    have hqueued := c.queued_of_pending p hslot
    refine ⟨fun q l => (hstands q l).trans ?_, htraced, ?_, ?_⟩
    · rw [queued_setSlot, setSlot_traces]
      grind [Slot.queued]
    · grind
    · grind
  · next hslot =>
    have hqueued : c.queued p = [] := by simp [queued, hslot]
    refine ⟨fun q l => (hstands q l).trans ?_, htraced, ?_, ?_⟩
    · rw [queued_setSlot, setSlot_traces]
      grind [Slot.queued]
    · grind
    · grind

theorem commit (h : c.Tallies calls) {source : String} {exports : ExportTable}
    (hs : IsSchedule (calls ++ [.commit p source exports])) :
    (Call.apply c (.commit p source exports)).Tallies (calls ++ [.commit p source exports]) := by
  have hstands : ∀ q l, Claimed (calls ++ [.commit p source exports]) q l ↔ Claimed calls q l := by
    intro q l
    simp [Claimed.concat_iff]
  -- a key that waits for the module is not the entry's, and no other module has it
  have hroot : ∀ l ∈ c.queued p, l ≠ .root := fun l hl =>
    hs.front.claim_ne_root ((h.stands_iff p l).mpr (.inl hl)).claim_mem
  have hunique : ∀ l ∈ c.queued p, ∀ q, Claimed calls q l → p = q := fun l hl q hq =>
    hs.front.claim_unique ((h.stands_iff p l).mpr (.inl hl)).claim_mem hq.claim_mem
  obtain ⟨hkeys, htraced, hready, hfinished⟩ := h
  simp only [hkeys] at hunique hstands
  refine ⟨fun q l => (hstands q l).trans ?_, ?_, ?_, ?_⟩
  · rw [Call.apply, queued_commit, commit_traces]
    grind
  · grind [Call.apply]
  · grind [Call.apply]
  · intro q l hl htrace
    rw [Call.apply, commit_traces] at htrace
    rw [Call.apply, commit_slots, Table.find?_insert]
    split
    · exact ⟨exports, rfl⟩
    · next hne =>
      have hno : l ∉ c.queued p := fun hl => hne (by simpa [hl] using htrace)
      exact hfinished q l hl (by rwa [if_neg hno] at htrace)

theorem abandon (h : c.Tallies calls) (hpending : c.isPending p) :
    (Call.apply c (.abandon p e)).Tallies (calls ++ [.abandon p e]) := by
  obtain ⟨load, joined, hslot⟩ := isPending_iff.mp hpending
  have hstands : ∀ q l, Claimed (calls ++ [.abandon p e]) q l ↔ Claimed calls q l ∧ p ≠ q := by
    intro q l
    simp [Claimed.concat_iff]
  obtain ⟨hkeys, htraced, hready, hfinished⟩ := h
  simp only [hkeys] at hstands
  -- a module that is still loading has no key recorded
  have hnone : ∀ l, l ≠ .root → c.traces.find? l ≠ some p := by
    intro l hl htrace
    obtain ⟨exports, hexports⟩ := hfinished p l hl htrace
    cases hexports.symm.trans hslot
  refine ⟨fun q l => (hstands q l).trans ?_, htraced, ?_, ?_⟩
  · rw [Call.apply, queued_abandon, abandon_traces]
    grind
  · grind [Call.apply]
  · grind [Call.apply]

theorem report (h : c.Tallies calls) :
    (Call.apply c (.report e)).Tallies (calls ++ [.report e]) where
  stands_iff q l := by
    have hstands : Claimed (calls ++ [.report e]) q l ↔ Claimed calls q l := by
      simp [Claimed.concat_iff]
    exact hstands.trans (h.stands_iff q l)
  traced := h.traced
  ready := h.ready
  finished := h.finished

theorem recordEntry (h : c.Tallies calls) (source : String) :
    (Call.apply c (.recordEntry p source)).Tallies (calls ++ [.recordEntry p source]) := by
  obtain ⟨hkeys, htraced, hready, hfinished⟩ := h
  refine ⟨fun q l => ?_, ?_, ?_, ?_⟩
  · have hstands : Claimed (calls ++ [.recordEntry p source]) q l ↔ Claimed calls q l := by
      simp [Claimed.concat_iff]
    rw [hstands, hkeys]
    grind [Call.apply, Context.recordEntry, queued]
  · grind [Call.apply, Context.recordEntry]
  · grind [Call.apply, Context.recordEntry]
  · grind [Call.apply, Context.recordEntry]

end Context.Tallies

theorem IsSchedule.tallies (h : IsSchedule calls) : (Context.after {} calls).Tallies calls := by
  induction calls using List.reverseRecOn with
  | nil => exact .start
  | append_singleton calls call ih =>
    have hcalls := ih h.front
    rw [Context.after_concat]
    cases call with
    | claim p k => exact hcalls.claim h
    | commit p source exports => exact hcalls.commit h
    | abandon p e => exact hcalls.abandon (h.isPending rfl)
    | report e => exact hcalls.report
    | recordEntry p source => exact hcalls.recordEntry source

/-! ## Loads that start -/

namespace Context

theorem claim_started_iff (c : Context) (p : ModulePath) (k : TraceKey) :
    (c.claim p k).1 = .started ↔ c.slots.find? p = none := by
  unfold claim
  split <;> simp_all

theorem find?_slots_claim_self (c : Context) (p : ModulePath) (k : TraceKey) :
    (c.claim p k).2.slots.find? p ≠ none := by
  unfold claim
  split
  · next exports hslot => simp [hslot]
  · next load joined hslot => simp [Table.find?_insert_self]
  · next hslot => simp [Table.find?_insert_self]

theorem find?_slots_apply (h : c.slots.find? p ≠ none) (hno : ∀ e, call ≠ .abandon p e) :
    (call.apply c).slots.find? p ≠ none := by
  cases call with
  | claim q k =>
    rw [Call.apply]
    unfold claim
    split
    · exact h
    all_goals
      rw [setSlot_slots, Table.find?_insert]
      split
      · exact Option.some_ne_none _
      · exact h
  | commit q source exports =>
    rw [Call.apply, commit_slots, Table.find?_insert]
    split
    · exact Option.some_ne_none _
    · exact h
  | abandon q e =>
    rw [Call.apply, abandon_slots, Table.find?_erase, if_neg]
    · exact h
    · rintro rfl
      exact hno e rfl
  | report e => exact h
  | recordEntry q source => exact h

theorem find?_slots_after (h : c.slots.find? p ≠ none) (hno : ∀ e, .abandon p e ∉ calls) :
    (c.after calls).slots.find? p ≠ none := by
  induction calls generalizing c with
  | nil => exact h
  | cons call calls ih =>
    have hcall : (call.apply c).slots.find? p ≠ none :=
      find?_slots_apply h fun e he => hno e (he ▸ List.mem_cons_self)
    exact ih hcall fun e he => hno e (List.mem_cons_of_mem call he)

theorem exists_abandon_of_started {l : TraceKey}
    (h : (((c.claim p k).2.after between).claim p l).1 = .started) :
    ∃ e, .abandon p e ∈ between := by
  by_contra hno
  rw [not_exists] at hno
  exact find?_slots_after (c.find?_slots_claim_self p k) hno ((claim_started_iff _ p l).mp h)

end Context

/-! ## Whole schedules -/

/-- What holds of the context after some calls on a new one. -/
structure Context.Orderly (calls : List Call) : Prop where
  /-- What has been recorded or finished has a source, -/
  sourced : ∀ p, p ∈ (after {} calls).traces.values ∨
    (∃ exports, (after {} calls).slots.find? p = some (.ready exports)) →
      p ∈ (after {} calls).sources.keys
  /-- so that an assembly passes over no key. -/
  assembled : (after {} calls).assembly.order =
    (Assembly.inKeyOrder (after {} calls).traces).eraseDups
  started_iff : ∀ p k, ((after {} calls).claim p k).1 = .started ↔
    (after {} calls).slots.find? p = none
  /-- A load that starts behind another claim of its module starts behind a failure. -/
  restarted : ∀ before p k between l behind,
    calls = before ++ .claim p k :: between ++ .claim p l :: behind →
      ((after {} (before ++ .claim p k :: between)).claim p l).1 = .started →
        ∃ e, .abandon p e ∈ between
  /-- A key waits for its module or is recorded for it as long as nothing abandons the module. -/
  held_iff : ∀ before p k behind, calls = before ++ .claim p k :: behind →
    ((k ∈ (after {} calls).queued p ∨ (after {} calls).traces.find? k = some p) ↔
      ∀ e, .abandon p e ∉ behind)
  /-- A load that fails leaves its error, and its slot is gone. -/
  abandons : ∀ p e, let abandoned := (after {} calls).abandon p e
    abandoned.sources = (after {} calls).sources ∧ abandoned.traces = (after {} calls).traces ∧
      abandoned.errors = (after {} calls).errors ++ [e] ∧ abandoned.slots.find? p = none ∧
      ∀ q ≠ p, abandoned.slots.find? q = (after {} calls).slots.find? q

theorem Context.Tallies.assembly_order (h : c.Tallies calls) :
    c.assembly.order = (Assembly.inKeyOrder c.traces).eraseDups := by
  have hall : (Assembly.inKeyOrder c.traces).filter c.sources.contains =
      Assembly.inKeyOrder c.traces := by
    refine List.filter_eq_self.mpr fun p hp => ?_
    obtain ⟨e, he, rfl⟩ := List.mem_map.mp hp
    exact h.traced e.2 e.1 (Table.find?_eq_some_iff.mpr (List.mem_mergeSort.mp he))
  rw [assembly, Assembly.ofTables, hall]

/-- Whatever the order of the calls, no source is missing where one is needed, a module has one
load at a time, and no import's key is lost unless its module's load has failed. -/
theorem IsSchedule.orderly (h : IsSchedule calls) : Context.Orderly calls := by
  have ht := h.tallies
  refine ⟨?_, ht.assembly_order, Context.claim_started_iff _, ?_, ?_, ?_⟩
  · rintro p (hp | ⟨exports, hp⟩)
    · obtain ⟨k, hk⟩ := Table.mem_values_iff.mp hp
      exact Table.mem_keys_iff.mpr (Option.isSome_iff_exists.mp (ht.traced p k hk))
    · exact Table.mem_keys_iff.mpr (Option.isSome_iff_exists.mp (ht.ready p exports hp))
  · intro before p k between l behind _ hagain
    rw [Context.after_append] at hagain
    exact Context.exists_abandon_of_started hagain
  · intro before p k behind heq
    have hroot : k ≠ .root := h.claim_ne_root (p := p) (by simp [heq])
    rw [← Claimed.iff_of_eq h heq, ht.stands_iff]
    simp [hroot]
  · intro p e
    refine ⟨rfl, rfl, rfl, ?_, fun q hq => ?_⟩
    · rw [Context.abandon_slots, Table.find?_erase, if_pos rfl]
    · rw [Context.abandon_slots, Table.find?_erase, if_neg hq.symm]

/-- Two imports wait for a load that fails, a third starts it anew, a fourth finds it finished. -/
theorem IsSchedule.orderly_retried :
    let m := ModulePath.ofText "/m"
    let calls : List Call := [.claim m ⟨[0]⟩, .claim m ⟨[1, 0]⟩,
      .abandon m (.missingExport "a" m m), .claim m ⟨[2]⟩, .commit m ".m" ∅, .claim m ⟨[3]⟩,
      .report (.missingExport "b" m m), .recordEntry m ".e"]
    IsSchedule calls ∧ Context.Orderly calls := by
  intro m calls
  have h : IsSchedule calls := by
    refine ⟨?_, ?_, ?_⟩ <;> decide +kernel
  exact ⟨h, h.orderly⟩

end StyleBundle
