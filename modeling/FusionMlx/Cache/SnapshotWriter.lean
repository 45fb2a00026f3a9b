import FusionMlx.Cache.SnapshotCalls

/-!
# The writer keeps the books of the snapshot store

What one stage of the writer may do beside its own item is said once; the
invariant follows from that and from a few facts about the item.
-/
namespace FusionMlx.SnapshotStore

open OrderedDict

variable {ρ α : Type} [DecidableEq ρ] {s s' : State ρ α} {i : Item ρ α} {st st' : Stage}

def due (s : State ρ α) (i : Item ρ α) (st : Stage) : Prop :=
  st.owes = true ∧ (st.touches = true → ¬ s.Live i.key)

instance (s : State ρ α) (i : Item ρ α) (st : Stage) : Decidable (due s i st) := inferInstanceAs (Decidable (_ ∧ _))

omit [DecidableEq ρ] in
theorem Caller.wipes.sweeps {c : Caller ρ α} (hw : c.wipes) (r : ρ) : c.sweeps r := by
  revert hw
  cases c <;> first | exact False.elim | exact fun _ => trivial

theorem owed_busy (hw : s.writer = .busy i st) (r : ρ) :
    s.owed r = (if i.key.1 = r ∧ due s i st then 1 else 0) +
      s.queue.countP (fun j => decide (j.key.1 = r ∧ ¬ s.Live j.key)) := by
  rw [State.owed, State.owing, hw, List.countP_append, ← Nat.add_assoc]
  congr 1
  rw [Writer.due, Writer.owing]
  by_cases ht : st.touches = true <;> by_cases ho : st.owes = true <;> by_cases hr : i.key.1 = r <;>
    by_cases hl : s.Live i.key <;> simp [due, hr, ht, ho, hl]

structure WriterMove (s s' : State ρ α) (i : Item ρ α) (st st' : Stage) : Prop where
  writer : s.writer = .busy i st
  writer' : s'.writer = .busy i st'
  queue : s'.queue = s.queue
  caller : s'.caller = s.caller
  pending : ∀ k, k ≠ i.key → s'.pending.get? k = s.pending.get? k
  files : ∀ k, k ≠ i.key →
    s'.files k = s.files k ∨ s'.files k = none ∧ k.1 = i.key.1 ∧ s.cancelled i.key.1 ≠ none
  temps : ∀ k, k ≠ i.key → s'.temps k = true → s.temps k = true
  cancelled : ∀ r, r ≠ i.key.1 → s'.cancelled r = s.cancelled r
  unmarked : s.cancelled i.key.1 = none → s'.cancelled i.key.1 = none
  current : ∀ k, current k s'.events = current k s.events
  lost : ∀ k, k ≠ i.key → lost k s'.events = lost k s.events
  written : ∀ k, k ≠ i.key → writtenSince k s'.events = writtenSince k s.events
  swept : ∀ r, sweptLast r s'.events = sweptLast r s.events
  touches : st.touches = true
  owes : st'.owes = true → st.owes = true
  begun : st = .lookup → s'.files = s.files ∧ s'.temps = s.temps ∧ (¬ s.Live i.key → st'.touches = false)
  before : st' ≠ .lookup ∧ (st'.beforeRename = true → st = .lookup ∨ st.beforeRename = true)
  marks : ∀ n t, s'.cancelled i.key.1 = some (n, t) →
    (s.cancelled i.key.1 = some (n, t) ∧ (due s i st → due s' i st')) ∨
      ∃ t', s.cancelled i.key.1 = some (n + 1, t') ∧ 1 ≤ n
  stage : AtStage s' i st'
  temp : s'.temps i.key = true → st'.withTemp = true
  content : ∀ e, s'.pending.get? i.key = some e → s.Live i.key ∧ e.content = i.content ∧
    e.extracted = st'.touches ∧ (e.extracted = false → s'.files i.key = none)
  popped : st'.touches = true → s.Live i.key → ¬ s'.Live i.key → s.caller.wipes
  file : ∀ c, s'.files i.key = some c → s'.Live i.key ∨ SnapshotStore.current i.key s.events = some c ∨
    s.caller.sweeps i.key.1
  cur : s.Live i.key → SnapshotStore.lost i.key s'.events = false →
    s'.pending.get? i.key = some ⟨i.content, true⟩ ∨ s.caller.wipes ∨
      s'.files i.key = some i.content ∧ ¬ s'.Live i.key
  fresh : s.Live i.key → s'.cancelled i.key.1 ≠ none → s'.Live i.key ∧ st'.touches = true ∨ s.caller.wipes
  renamed : s.Live i.key → ¬ s'.Live i.key → ∀ c, s'.files i.key = some c →
    writtenSince i.key s'.events = true ∨ s.caller.wipes

namespace WriterMove

variable (m : WriterMove s s' i st st')
include m

theorem touching_before : s.touching = i :: s.queue := by
  simp [State.touching, m.writer, Writer.touching, m.touches]

theorem touching_after : s'.touching = if st'.touches = true then i :: s.queue else s.queue := by
  rw [State.touching, m.writer', m.queue, Writer.touching]
  split <;> rfl

theorem touching_sublist : s'.touching.Sublist s.touching := by
  rw [m.touching_before, m.touching_after]
  split
  · exact List.Sublist.refl _
  · exact List.sublist_cons_self _ _

theorem live_other {k : Key ρ} (hk : k ≠ i.key) : s'.Live k ↔ s.Live k := by
  rw [State.Live, State.Live, m.pending k hk]

theorem live_of {k : Key ρ} (hl : s'.Live k) : s.Live k := by
  by_cases hk : k = i.key
  · obtain ⟨e, he⟩ := live_iff.1 hl
    rw [hk] at he ⊢
    exact (m.content e he).1
  · exact (m.live_other hk).1 hl

theorem files_of {k : Key ρ} {c : α} (hk : k ≠ i.key) (hf : s'.files k = some c) : s.files k = some c := by
  rcases m.files k hk with heq | ⟨hnone, -⟩
  · rw [← heq, hf]
  · rw [hnone] at hf
    cases hf

end WriterMove

namespace Inv

theorem wiped (h : Inv s) (hw : s.caller.wipes) (k : Key ρ) : current k s.events = none := by
  refine h.cleanedAll ?_ k
  revert hw
  cases s.caller <;> first | exact fun hw => hw | exact fun _ => trivial

variable (h : Inv s) (m : WriterMove s s' i st st')
include h m

theorem move_queue : ∀ j ∈ s.queue, j.key ≠ i.key := by
  have hkeys := h.keys
  rw [m.touching_before, List.map_cons, List.nodup_cons] at hkeys
  exact fun j hj heq => hkeys.1 (heq ▸ List.mem_map_of_mem hj)

theorem move_nosave : ¬ s.caller.saves i.key :=
  fun hs => h.apart _ hs i (mem_touching m.writer m.touches) rfl

/-- The item of the writer, if it is buffered, holds the current snapshot. -/
theorem move_item (hl : s.Live i.key) : s.pending.get? i.key = some ⟨i.content, true⟩ := by
  obtain ⟨e, he⟩ := live_iff.1 hl
  rw [he, h.content i (mem_touching m.writer m.touches) e he]

theorem move_current {c : α} (hc : SnapshotStore.current i.key s.events = some c) :
    s.Live i.key ∧ ¬ s.caller.wipes ∧ c = i.content := by
  by_cases hl : s.Live i.key
  · rcases h.known _ _ (h.move_item m hl) with hk | hs | hw
    · refine ⟨hl, fun hw => ?_, Option.some.inj (hc.symm.trans hk)⟩
      cases (h.wiped hw i.key).symm.trans hc
    · exact absurd hs (h.move_nosave m)
    · cases (h.wiped hw i.key).symm.trans hc
  · cases (h.gone i (mem_touching m.writer m.touches) hl).symm.trans hc

theorem move_content :
    ∀ j ∈ s'.touching, ∀ e, s'.pending.get? j.key = some e → e = ⟨j.content, true⟩ := by
  intro j hj e he
  by_cases hji : j.key = i.key
  · have hi : j = i := by
      rcases List.mem_cons.1 (m.touching_before ▸ m.touching_sublist.subset hj) with rfl | hq
      · rfl
      · exact absurd hji (h.move_queue m j hq)
    subst hi
    obtain ⟨-, hc, hx, -⟩ := m.content e he
    have ht : st'.touches = true := by
      by_contra ht
      rw [m.touching_after, if_neg ht] at hj
      exact h.move_queue m j hj rfl
    rw [ht] at hx
    cases e
    simp_all
  · rw [m.pending _ hji] at he
    exact h.content j (m.touching_sublist.subset hj) e he

theorem move_kept :
    ∀ k c, s'.pending.get? k = some ⟨c, true⟩ →
      (∃ j ∈ s'.touching, j.key = k) ∨ s'.caller.saves k ∨ s'.caller.wipes := by
  intro k c hk
  rw [m.caller]
  by_cases hki : k = i.key
  · subst hki
    have ht := (m.content _ hk).2.2.1
    refine .inl ⟨i, ?_, rfl⟩
    rw [m.touching_after, if_pos ht.symm]
    exact List.mem_cons_self
  · rw [m.pending k hki] at hk
    rcases h.kept k c hk with ⟨j, hj, hjk⟩ | hs
    · refine .inl ⟨j, ?_, hjk⟩
      rw [m.touching_before] at hj
      rcases List.mem_cons.1 hj with rfl | hq
      · exact absurd hjk.symm hki
      · rw [m.touching_after]
        split
        · exact List.mem_cons_of_mem _ hq
        · exact hq
    · exact .inr hs

theorem move_fifo :
    s'.owing.Pairwise (fun i j => i.key.1 = j.key.1 → s'.Live i.key → s'.Live j.key) := by
  have hfifo : ∀ l : List (Item ρ α), l.Sublist s.owing → (∀ j ∈ l, j.key ≠ i.key) →
      l.Pairwise (fun a b => a.key.1 = b.key.1 → s'.Live a.key → s'.Live b.key) := by
    intro l hl hne
    refine (h.fifo.sublist hl).imp_of_mem ?_
    intro a b _ hb hab hrid ha
    exact (m.live_other (hne b hb)).2 (hab hrid (m.live_of ha))
  have hrest := hfifo s.queue (List.sublist_append_right _ _) (h.move_queue m)
  rw [State.owing, m.writer', m.queue, Writer.owing]
  split
  · next hboth =>
    rw [Bool.and_eq_true] at hboth
    have howing : s.owing = i :: s.queue := by
      simp [State.owing, m.writer, Writer.owing, m.touches, m.owes hboth.2]
    have hfirst := h.fifo
    rw [howing, List.pairwise_cons] at hfirst
    refine List.pairwise_cons.2 ⟨?_, hrest⟩
    intro b hb hrid ha
    exact (m.live_other (h.move_queue m b hb)).2 (hfirst.1 b hb hrid (m.live_of ha))
  · exact hrest

theorem move_marks :
    ∀ r n t, s'.cancelled r = some (n, t) → 1 ≤ n ∧ (n ≤ s'.owed r ∨ s'.caller.clearsMarks r) := by
  intro r n t hm
  rw [m.caller]
  have hrest : ∀ r, s'.queue.countP (fun j => decide (j.key.1 = r ∧ ¬ s'.Live j.key)) =
      s.queue.countP (fun j => decide (j.key.1 = r ∧ ¬ s.Live j.key)) := by
    intro r
    rw [m.queue]
    refine List.countP_congr fun j hj => ?_
    rw [decide_eq_true_iff, decide_eq_true_iff, m.live_other (h.move_queue m j hj)]
  by_cases hr : r = i.key.1
  · subst hr
    rcases m.marks n t hm with ⟨hold, hdue⟩ | ⟨t', hold, hpos⟩
    · refine ⟨(h.marks _ n t hold).1, (h.marks _ n t hold).2.imp_left fun hle => ?_⟩
      rw [owed_busy m.writer] at hle
      rw [owed_busy m.writer', hrest]
      by_cases hd : due s i st
      · rw [if_pos ⟨rfl, hd⟩] at hle
        rwa [if_pos ⟨rfl, hdue hd⟩]
      · rw [if_neg fun hboth => hd hboth.2] at hle
        omega
    · refine ⟨hpos, (h.marks _ _ t' hold).2.imp_left fun hle => ?_⟩
      rw [owed_busy m.writer] at hle
      rw [owed_busy m.writer', hrest]
      split at hle <;> omega
  · rw [m.cancelled r hr] at hm
    refine ⟨(h.marks r n t hm).1, (h.marks r n t hm).2.imp_left fun hle => ?_⟩
    rw [owed_busy m.writer, if_neg fun hboth => hr hboth.1.symm] at hle
    rwa [owed_busy m.writer', hrest, if_neg fun hboth => hr hboth.1.symm]

theorem move_gone :
    ∀ j ∈ s'.touching, ¬ s'.Live j.key → SnapshotStore.current j.key s'.events = none := by
  intro j hj hl
  rw [m.current]
  by_cases hold : s.Live j.key
  · have hji : j.key = i.key := by
      by_contra hne
      exact hl ((m.live_other hne).2 hold)
    have ht : st'.touches = true := by
      by_contra ht
      rw [m.touching_after, if_neg ht] at hj
      exact h.move_queue m j hj hji
    exact h.wiped (m.popped ht (hji ▸ hold) (hji ▸ hl)) _
  · exact h.gone j (m.touching_sublist.subset hj) hold

theorem move_cur :
    ∀ k c, SnapshotStore.current k s'.events = some c → lost k s'.events = false →
      (s'.pending.get? k = some ⟨c, true⟩ ∧ ¬ s'.caller.saves k) ∨
        (s'.files k = some c ∧ (s'.Live k → s'.caller.saves k)) := by
  intro k c hc hl
  rw [m.current] at hc
  rw [m.caller]
  by_cases hki : k = i.key
  · subst hki
    obtain ⟨hlive, hw, rfl⟩ := h.move_current m hc
    rcases m.cur hlive hl with hp | hw' | ⟨hf, hd⟩
    · exact .inl ⟨hp, h.move_nosave m⟩
    · exact absurd hw' hw
    · exact .inr ⟨hf, fun hl => absurd hl hd⟩
  · rw [m.lost k hki] at hl
    rcases h.cur k c hc hl with ⟨hp, hs⟩ | ⟨hf, hs⟩
    · exact .inl ⟨(m.pending k hki).trans hp, hs⟩
    · rcases m.files k hki with heq | ⟨-, hrid, hmark⟩
      · exact .inr ⟨heq.trans hf, fun hl => hs ((m.live_other hki).1 hl)⟩
      · have hp := h.fresh k c (hrid ▸ hmark) hc
        exact .inl ⟨(m.pending k hki).trans hp.1, hp.2⟩

theorem move_fresh :
    ∀ k c, s'.cancelled k.1 ≠ none → SnapshotStore.current k s'.events = some c →
      s'.pending.get? k = some ⟨c, true⟩ ∧ ¬ s'.caller.saves k := by
  intro k c hm hc
  rw [m.current] at hc
  rw [m.caller]
  by_cases hki : k = i.key
  · subst hki
    obtain ⟨hlive, hw, rfl⟩ := h.move_current m hc
    rcases m.fresh hlive hm with ⟨hl, ht⟩ | hw'
    · obtain ⟨⟨v, x⟩, he⟩ := live_iff.1 hl
      obtain ⟨-, hv, hx, -⟩ := m.content _ he
      rw [he, ← hv, show x = true from hx.trans ht]
      exact ⟨rfl, h.move_nosave m⟩
    · exact absurd hw' hw
  · have hm' : s.cancelled k.1 ≠ none := by
      by_cases hrid : k.1 = i.key.1
      · rw [hrid] at hm ⊢
        exact mt m.unmarked hm
      · rwa [← m.cancelled _ hrid]
    rw [m.pending k hki]
    exact h.fresh k c hm' hc

theorem move_quiet :
    ∀ r, sweptLast r s'.events = true ∨ s'.caller = .releasing r ∨ s'.caller = .unmarking r → Quiet s' r := by
  intro r hr
  rw [m.caller, m.swept] at hr
  obtain ⟨hnone, hbusy⟩ := h.quiet r hr
  refine ⟨fun k hk => ?_, ?_⟩
  · refine ⟨fun hl => (hnone k hk).1 (m.live_of hl), ?_⟩
    by_cases hrid : i.key.1 = r
    · obtain ⟨hf, ht, -⟩ := m.begun (hbusy i st m.writer hrid m.touches)
      rw [hf, ht]
      exact (hnone k hk).2
    · have hki : k ≠ i.key := fun heq => hrid (heq ▸ hk)
      constructor
      · rcases m.files k hki with heq | hnone'
        · exact heq.trans (hnone k hk).2.1
        · exact hnone'.1
      · exact Bool.eq_false_iff.2 fun ht => Bool.false_ne_true ((hnone k hk).2.2.symm.trans (m.temps k hki ht))
  · intro j stage hw hj ht
    rw [m.writer'] at hw
    cases hw
    have hst := hbusy i st m.writer hj m.touches
    have hfalse := (m.begun hst).2.2 (hnone _ hj).1
    rw [ht] at hfalse
    cases hfalse

theorem move : Inv s' where
  keys := List.Nodup.sublist (m.touching_sublist.map _) h.keys
  buffered := by
    intro k c hk
    rw [m.caller] at hk
    have hne : k ≠ i.key := by
      rintro rfl
      refine h.move_nosave m ?_
      rcases hk with hk | hk <;> rw [hk] <;> rfl
    rw [m.pending k hne]
    exact h.buffered k c hk
  apart := by
    intro k hk j hj
    rw [m.caller] at hk
    exact h.apart k hk j (m.touching_sublist.subset hj)
  content := h.move_content m
  kept := h.move_kept m
  fifo := h.move_fifo m
  lock := by
    intro hholds
    rw [m.caller] at hholds
    have hfree := h.lock hholds
    rw [m.writer] at hfree
    cases hfree
  drained := by
    rw [m.caller, m.queue]
    exact h.drained
  marks := h.move_marks m
  stage := by
    intro j stage hw
    rw [m.writer'] at hw
    cases hw
    exact m.stage
  temps := by
    intro k hk
    by_cases hki : k = i.key
    · subst hki
      exact ⟨i, st', m.writer', rfl, m.temp hk⟩
    · obtain ⟨j, stage, hw, hjk, -⟩ := h.temps k (m.temps k hki hk)
      rw [m.writer] at hw
      cases hw
      exact absurd hjk.symm hki
  known := by
    intro k e he
    rw [m.caller, m.current]
    by_cases hki : k = i.key
    · subst hki
      obtain ⟨hl, hc, -⟩ := m.content e he
      rw [hc]
      exact h.known _ _ (h.move_item m hl)
    · exact h.known k e ((m.pending k hki).symm.trans he)
  gone := h.move_gone m
  leftover := by
    intro k c hk
    by_cases hki : k = i.key
    · subst hki
      exact (m.content _ hk).2.2.2 rfl
    · have hf := h.leftover k c ((m.pending k hki).symm.trans hk)
      rcases m.files k hki with heq | hnone
      · exact heq.trans hf
      · exact hnone.1
  file := by
    intro k c hf
    rw [m.caller, m.current]
    by_cases hki : k = i.key
    · subst hki
      exact m.file c hf
    · exact (h.file k c (m.files_of hki hf)).imp_left (m.live_other hki).2
  older := by
    intro k hk c hf
    rw [m.caller] at hk
    have hki : k ≠ i.key := fun heq => h.move_nosave m (heq ▸ hk)
    exact (m.current k).trans (h.older k hk c (m.files_of hki hf))
  cur := h.move_cur m
  fresh := h.move_fresh m
  written := by
    intro k c hf hc hs
    rw [m.current] at hc
    rw [m.caller] at hs
    by_cases hki : k = i.key
    · subst hki
      obtain ⟨hlive, hw, rfl⟩ := h.move_current m hc
      exact (m.renamed hlive (fun hl => h.move_nosave m (hs hl)) _ hf).resolve_right hw
    · rw [m.written k hki]
      exact h.written k c (m.files_of hki hf) hc fun hl => hs ((m.live_other hki).2 hl)
  cleaning := by
    intro k hk
    rw [m.caller] at hk
    exact ⟨fun hl => (h.cleaning k hk).1 (m.live_of hl), (m.current k).trans (h.cleaning k hk).2⟩
  cleanedAll := by
    rw [m.caller]
    exact fun hc k => (m.current k).trans (h.cleanedAll hc k)
  quiet := h.move_quiet m
  timedOut := by
    intro hc
    rw [m.caller] at hc
    refine ⟨fun j hj => ?_, fun j stage hw hor => ?_⟩
    · rw [m.writer'] at hj
      cases hj
    · rw [m.writer'] at hw
      cases hw
      have hst := m.before.2 (hor.resolve_left m.before.1)
      exact fun hl => (h.timedOut hc).2 i st m.writer hst (m.live_of hl)
  loading := by
    intro k c hc hk
    rw [m.caller] at hc
    by_cases hki : k = i.key
    · subst hki
      exact h.loading _ _ hc (h.move_item m (m.content _ hk).1)
    · exact h.loading k c hc ((m.pending k hki).symm.trans hk)

end Inv

/-- The item of a touching writer, while it is buffered. -/
theorem Inv.item (h : Inv s) (hw : s.writer = .busy i st) (ht : st.touches = true) (hl : s.Live i.key) :
    s.pending.get? i.key = some ⟨i.content, true⟩ := by
  obtain ⟨e, he⟩ := live_iff.1 hl
  rw [he, h.content i (mem_touching hw ht) e he]

/-- The writer has a temporary file of its own item only. -/
theorem Inv.temp_stage (h : Inv s) (hw : s.writer = .busy i st) {k : Key ρ} (htrue : s.temps k = true) :
    st.withTemp = true := by
  obtain ⟨j, stage, hwj, -, hj⟩ := h.temps k htrue
  cases hw.symm.trans hwj
  exact hj

/-- A buffered item is found marked only when the whole buffer is about to be cleared. -/
theorem Inv.marked_live (h : Inv s) (hw : s.writer = .busy i st) (ht : st.touches = true) (ho : st.owes = true)
    (hl : s.Live i.key) (hm : s.cancelled i.key.1 ≠ none) : s.caller.wipes := by
  obtain ⟨⟨n, t⟩, hm⟩ := Option.ne_none_iff_exists'.1 hm
  obtain ⟨hpos, hor⟩ := h.marks _ n t hm
  have hclears : s.caller.clearsMarks i.key.1 := by
    refine hor.resolve_left fun hle => ?_
    have hfifo := h.fifo
    rw [State.owing, hw, Writer.owing, ht, ho] at hfifo
    have hfirst := (List.pairwise_cons.1 hfifo).1
    rw [owed_busy hw, if_neg fun hboth => hboth.2.2 ht hl, Nat.zero_add,
      List.countP_eq_zero.2 fun j hj hboth => ?_] at hle
    · omega
    · rw [decide_eq_true_iff] at hboth
      exact hboth.2 (hfirst j hj hboth.1.symm hl)
  have hcleans : ¬ s.caller.cleans i.key.1 := fun hc => (h.cleaning _ hc).1 hl
  have hlock := h.lock
  rw [hw] at hlock
  revert hclears hcleans hlock
  cases s.caller with
  | cleaning r | releasing r | unmarking r => exact fun hc hn _ => absurd hc hn
  | removing r acquired =>
    cases acquired with
    | false => exact fun hc => hc.elim
    | true => exact fun hc hn _ => absurd hc hn
  | unmarkingAll acquired =>
    cases acquired with
    | false => exact fun hc => hc.elim
    | true => exact fun _ _ hlock => by cases hlock rfl
  | draining | waitingAll | clearing acquired => exact fun _ _ _ => trivial
  | _ => exact fun hc => hc.elim

/-- A move that leaves buffer and files alone. -/
theorem Inv.test (h : Inv s) (hw : s.writer = .busy i st) (ht : st.touches = true) {c : ρ → Option (Nat × Nat)}
    (hother : ∀ r, r ≠ i.key.1 → c r = s.cancelled r)
    (hmark : c i.key.1 = s.cancelled i.key.1 ∧ (due s i st → due s i st') ∨ c i.key.1 = none)
    (howes : st'.owes = true → st.owes = true) (hbegun : st = .lookup → ¬ s.Live i.key → st'.touches = false)
    (hbefore : st' ≠ .lookup ∧ (st'.beforeRename = true → st = .lookup ∨ st.beforeRename = true))
    (hstage : AtStage { s with cancelled := c, writer := .busy i st' } i st')
    (htemp : st.withTemp = true → st'.withTemp = true) (htouches : s.Live i.key → st'.touches = true) :
    Inv { s with cancelled := c, writer := .busy i st' } :=
  h.move (i := i)
  { writer := hw
    writer' := rfl
    queue := rfl
    caller := rfl
    pending := fun _ _ => rfl
    files := fun _ _ => .inl rfl
    temps := fun _ _ => id
    cancelled := hother
    unmarked := fun hnone => hmark.elim (fun hsame => hsame.1.trans hnone) id
    current := fun _ => rfl
    lost := fun _ _ => rfl
    written := fun _ _ => rfl
    swept := fun _ => rfl
    touches := ht
    owes := howes
    begun := fun hst => ⟨rfl, rfl, hbegun hst⟩
    before := hbefore
    marks := by
      intro n t hm
      rcases hmark with ⟨hsame, hdue⟩ | hnone
      · exact .inl ⟨hsame.symm.trans hm, hdue⟩
      · cases hnone.symm.trans hm
    stage := hstage
    temp := fun htrue => htemp (h.temp_stage hw htrue)
    content := by
      intro e he
      have hl := live_iff.2 ⟨e, he⟩
      obtain rfl := Option.some.inj ((h.item hw ht hl).symm.trans he)
      exact ⟨hl, rfl, (htouches hl).symm, fun hx => by cases hx⟩
    popped := fun _ hl hd => absurd hl hd
    file := h.file i.key
    cur := fun hl _ => .inl (h.item hw ht hl)
    fresh := fun hl _ => .inl ⟨hl, htouches hl⟩
    renamed := fun hl hd => absurd hl hd }

theorem branch_eq (s : State ρ α) (i : Item ρ α) (yes no : Stage) :
    s.branch i yes no =
      if s.isCancelled i.key.1 then { s with cancelled := s.cancelled, writer := .busy i yes }
      else { s with cancelled := fun r => if r = i.key.1 then none else s.cancelled r, writer := .busy i no } := by
  unfold State.branch State.expire State.isCancelled
  cases hm : s.cancelled i.key.1 with
  | none =>
    have hsame : (fun r => if r = i.key.1 then none else s.cancelled r) = s.cancelled := by
      funext r
      split
      · next hr => rw [hr, hm]
      · rfl
    simp [State.expired, hm, State.stage, hsame]
  | some entry =>
    by_cases hx : s.expired i.key.1 = true <;> simp [hx, State.stage, State.setCancelled]

variable {rid : ρ}

omit [DecidableEq ρ] in
theorem isCancelled_ne_none (hc : s.isCancelled rid = true) : s.cancelled rid ≠ none := by
  rw [State.isCancelled, Bool.and_eq_true] at hc
  exact Option.isSome_iff_ne_none.1 hc.1

omit [DecidableEq ρ] in
/-- A mark that `_is_cancelled` does not find has expired. -/
theorem expired_of_not_isCancelled (hc : ¬ s.isCancelled rid = true) (hm : s.cancelled rid ≠ none) :
    s.expired rid = true := by
  rw [State.isCancelled, Bool.and_eq_true, not_and] at hc
  simpa using hc (Option.isSome_iff_ne_none.2 hm)

/-- `_is_cancelled` at a stage that touches the item. -/
theorem Inv.branch (h : Inv s) (hw : s.writer = .busy i st) (ht : st.touches = true) {yes no : Stage}
    (hshape : yes.touches = true ∧ no.touches = true ∧ st.owes = true ∧ yes.owes = true ∧ st ≠ .lookup)
    (hyes : yes ≠ .lookup ∧ yes.beforeRename = false) (hno : no ≠ .lookup ∧ (no.beforeRename = true → st.beforeRename = true))
    (htemp : st.withTemp = true → yes.withTemp = true ∧ no.withTemp = true)
    (hstageYes : s.cancelled i.key.1 ≠ none → AtStage s i yes)
    (hstageNo : (s.cancelled i.key.1 ≠ none → s.expired i.key.1 = true) →
      AtStage { s with cancelled := fun r => if r = i.key.1 then none else s.cancelled r, writer := .busy i no } i no) :
    Inv (s.branch i yes no) := by
  obtain ⟨hty, htn, ho, hoy, hlookup⟩ := hshape
  rw [branch_eq]
  split
  · next hc =>
    refine h.test hw ht (fun _ _ => rfl) (.inl ⟨rfl, fun hd => ⟨hoy, fun _ => hd.2 ht⟩⟩) (fun _ => ho)
      (fun hst => absurd hst hlookup) ⟨hyes.1, by simp [hyes.2]⟩ ?_ (fun hst => (htemp hst).1) (fun _ => hty)
    exact (hstageYes (isCancelled_ne_none hc)).mono Iff.rfl rfl rfl id id id id id
  · next hc =>
    exact h.test hw ht (fun r hr => if_neg hr) (.inr (if_pos rfl)) (fun _ => ho) (fun hst => absurd hst hlookup)
      ⟨hno.1, fun hb => .inr (hno.2 hb)⟩ (hstageNo (expired_of_not_isCancelled hc)) (fun hst => (htemp hst).2)
      (fun _ => htn)

/-- A move that takes back what was done for an item that is no longer buffered. -/
theorem Inv.undo (h : Inv s) (hw : s.writer = .busy i st) (ht : st.touches = true) (hdead : ¬ s.Live i.key)
    (hw' : s'.writer = .busy i st') (hqueue : s'.queue = s.queue) (hcaller : s'.caller = s.caller)
    (hevents : s'.events = s.events) (hpending : ∀ k, s'.pending.get? k = s.pending.get? k)
    (hfiles : ∀ k, s'.files k = s.files k ∨
      s'.files k = none ∧ (k = i.key ∨ k.1 = i.key.1 ∧ s.cancelled i.key.1 ≠ none))
    (htemps : ∀ k, s'.temps k = true → s.temps k = true) (htemp : s'.temps i.key = true → st'.withTemp = true)
    (hother : ∀ r, r ≠ i.key.1 → s'.cancelled r = s.cancelled r)
    (hunmarked : s.cancelled i.key.1 = none → s'.cancelled i.key.1 = none)
    (hmarks : ∀ n t, s'.cancelled i.key.1 = some (n, t) →
      (s.cancelled i.key.1 = some (n, t) ∧ (due s i st → due s' i st')) ∨
        ∃ t', s.cancelled i.key.1 = some (n + 1, t') ∧ 1 ≤ n)
    (howes : st'.owes = true → st.owes = true) (hlookup : st ≠ .lookup)
    (hbefore : st' ≠ .lookup ∧ st'.beforeRename = false) (hstage : AtStage s' i st') : Inv s' := by
  have hdead' : s'.pending.get? i.key = none := (hpending _).trans (not_live_iff.1 hdead)
  exact h.move (i := i)
    { writer := hw
      writer' := hw'
      queue := hqueue
      caller := hcaller
      pending := fun k _ => hpending k
      files := fun k hk => (hfiles k).imp_right fun hnone => ⟨hnone.1, hnone.2.resolve_left hk⟩
      temps := fun k _ => htemps k
      cancelled := hother
      unmarked := hunmarked
      current := fun k => by rw [hevents]
      lost := fun k _ => by rw [hevents]
      written := fun k _ => by rw [hevents]
      swept := fun r => by rw [hevents]
      touches := ht
      owes := howes
      begun := fun hst => absurd hst hlookup
      before := ⟨hbefore.1, by simp [hbefore.2]⟩
      marks := hmarks
      stage := hstage
      temp := htemp
      content := fun e he => by cases hdead'.symm.trans he
      popped := fun _ hl => absurd hl hdead
      file := by
        intro c hf
        rcases hfiles i.key with heq | ⟨hnone, -⟩
        · exact .inr ((h.file _ c (heq.symm.trans hf)).resolve_left hdead)
        · cases hnone.symm.trans hf
      cur := fun hl => absurd hl hdead
      fresh := fun hl => absurd hl hdead
      renamed := fun hl => absurd hl hdead }

section
variable (h : Inv s)
include h

theorem Inv.lookup (hw : s.writer = .busy i .lookup) :
    Inv (s.stage i (if (s.pending.get? i.key).isSome then .check else .clearedCheck)) := by
  split
  · next hl =>
    refine h.test hw rfl (fun _ _ => rfl) (.inl ⟨rfl, id⟩) (fun _ => rfl) (fun _ hd => absurd hl hd)
      ⟨by simp, fun _ => .inl rfl⟩ ?_ (by simp [Stage.withTemp]) (fun _ => rfl)
    exact fun hd => absurd hl hd
  · next hl =>
    exact h.test hw rfl (fun _ _ => rfl) (.inl ⟨rfl, fun _ => ⟨rfl, by simp [Stage.touches]⟩⟩) (fun _ => rfl)
      (fun _ _ => rfl) ⟨by simp, by simp [Stage.beforeRename]⟩ trivial (by simp [Stage.withTemp])
      (fun hl' => absurd hl' hl)

theorem Inv.check (hw : s.writer = .busy i .check) (hok : ¬ s.Live i.key → s.expired i.key.1 ≠ true) :
    Inv (s.branch i .skipPop .write) := by
  refine h.branch hw rfl ⟨rfl, rfl, rfl, rfl, by simp⟩ ⟨by simp, rfl⟩ ⟨by simp, fun _ => rfl⟩
    (by simp [Stage.withTemp]) ?_ ?_
  · exact fun hm => ⟨hm, fun hl => h.marked_live hw rfl rfl hl hm⟩
  · intro hx
    exact ⟨fun hd => absurd (hx (h.stage i _ hw hd)) (hok hd), fun _ => if_pos rfl⟩

theorem Inv.checkTemp (hw : s.writer = .busy i .checkTemp)
    (hok : ¬ s.Live i.key → s.expired i.key.1 = true → s.temps i.key = false) : Inv (s.branch i .dropTemp .rename) := by
  have hst := h.stage i _ hw
  refine h.branch hw rfl ⟨rfl, rfl, rfl, rfl, by simp⟩ ⟨by simp, rfl⟩ ⟨by simp, fun _ => rfl⟩
    (by simp [Stage.withTemp]) ?_ ?_
  · exact fun hm => ⟨fun hl => hm (hst.2 hl), hm⟩
  · intro hx
    exact ⟨fun hd => .inl (hok hd (hx (hst.1 hd))), fun _ => if_pos rfl⟩

theorem Inv.enforce (hw : s.writer = .busy i .enforce) : Inv (s.stage i .checkFile) := by
  have hst := h.stage i _ hw
  refine h.test hw rfl (fun _ _ => rfl) (.inl ⟨rfl, id⟩) (fun _ => rfl) (by simp) ⟨by simp, by simp [Stage.beforeRename]⟩
    ?_ (by simp [Stage.withTemp]) (fun _ => rfl)
  exact @AtStage.mono _ _ _ _ _ _ .checkFile hst Iff.rfl rfl rfl id id id id id

theorem Inv.checkFile (hw : s.writer = .busy i .checkFile) : Inv (s.branch i .dropFile .finish) := by
  have hst := h.stage i _ hw
  refine h.branch hw rfl ⟨rfl, rfl, rfl, rfl, by simp⟩ ⟨by simp, rfl⟩ ⟨by simp, by simp [Stage.beforeRename]⟩
    (by simp [Stage.withTemp]) ?_ ?_
  · exact fun hm => ⟨fun hl => hm (hst.2 hl).1, hm⟩
  · exact fun _ hl => ⟨if_pos rfl, (hst.2 hl).2⟩

theorem Inv.failedCheck (hw : s.writer = .busy i .failedCheck) : Inv (s.branch i (.dec true) .finish) := by
  have hst := h.stage i _ hw
  refine h.branch hw rfl ⟨rfl, rfl, rfl, rfl, by simp⟩ ⟨by simp, rfl⟩ ⟨by simp, by simp [Stage.beforeRename]⟩
    (by simp [Stage.withTemp]) ?_ ?_
  · exact fun hm hl => hm (hst hl).1
  · exact fun _ hl => ⟨if_pos rfl, (hst hl).2⟩

omit h in
theorem get?_erase_dead {k : Key ρ} (hdead : ¬ s.Live k) (k' : Key ρ) :
    (s.pending.erase k).get? k' = s.pending.get? k' := by
  rw [Dict.get?_erase]
  split
  · next hk => rw [hk, not_live_iff.1 hdead]
  · rfl

/-- The folder of a marked request is removed for an item that is no longer buffered. -/
theorem Inv.folder (hw : s.writer = .busy i st) (ht : st.touches = true) (hdead : ¬ s.Live i.key)
    (hmark : s.cancelled i.key.1 ≠ none) (howes : st.owes = true) (hlookup : st ≠ .lookup) {final : Bool}
    (hstage : AtStage ((s.removeFolder i.key.1).stage i (.dec final)) i (.dec final)) :
    Inv ((s.removeFolder i.key.1).stage i (.dec final)) := by
  refine h.undo hw ht hdead rfl rfl rfl rfl (fun _ => rfl) ?_ ?_ ?_ (fun _ _ => rfl) id
    (fun n t hm => .inl ⟨hm, fun _ => ⟨rfl, fun _ => hdead⟩⟩) (fun _ => howes) hlookup ⟨by simp, rfl⟩ hstage
  · intro k
    change (if k.1 = i.key.1 then none else s.files k) = s.files k ∨ _
    split
    · next hk => exact .inr ⟨if_pos hk, .inr ⟨hk, hmark⟩⟩
    · exact .inl rfl
  · intro k hk
    replace hk : (if k.1 = i.key.1 then false else s.temps k) = true := hk
    split at hk
    · cases hk
    · exact hk
  · intro hk
    cases (if_pos rfl).symm.trans hk

theorem Inv.skipRemove (hw : s.writer = .busy i .skipRemove) :
    Inv ((s.removeFolder i.key.1).stage i (.dec false)) := by
  obtain ⟨hdead, hmark⟩ := h.stage i _ hw
  exact h.folder hw rfl hdead hmark rfl (by simp) trivial

theorem Inv.dropTemp (hw : s.writer = .busy i .dropTemp) : Inv ((s.setTemp i.key false).stage i .dropPending) := by
  have hst := h.stage i _ hw
  refine h.undo hw rfl hst.1 rfl rfl rfl rfl (fun _ => rfl) (fun _ => .inl rfl) ?_ ?_ (fun _ _ => rfl) id
    (fun n t hm => .inl ⟨hm, id⟩) (fun _ => rfl) (by simp) ⟨by simp, rfl⟩ hst
  · intro k hk
    replace hk : (if k = i.key then false else s.temps k) = true := hk
    split at hk
    · cases hk
    · exact hk
  · intro hk
    cases (if_pos rfl).symm.trans hk

theorem Inv.dropPending (hw : s.writer = .busy i .dropPending) : Inv ((s.popPending i.key).stage i (.dec true)) := by
  obtain ⟨hdead, -⟩ := h.stage i _ hw
  have hsame := get?_erase_dead hdead
  have hdead' : ¬ ((s.popPending i.key).stage i (.dec true)).Live i.key :=
    not_live_iff.2 ((hsame i.key).trans (not_live_iff.1 hdead))
  refine h.undo hw rfl hdead rfl rfl rfl rfl hsame (fun _ => .inl rfl) (fun _ => id) ?_ (fun _ _ => rfl) id
    (fun n t hm => .inl ⟨hm, fun _ => ⟨rfl, fun _ => hdead'⟩⟩) (fun _ => rfl) (by simp) ⟨by simp, rfl⟩ hdead'
  exact fun htrue => by cases h.temp_stage hw htrue

theorem Inv.dropFile (hw : s.writer = .busy i .dropFile) : Inv ((s.setFile i.key none).stage i .dropFolder) := by
  have hst := h.stage i _ hw
  refine h.undo hw rfl hst.1 rfl rfl rfl rfl (fun _ => rfl) ?_ (fun _ => id) ?_ (fun _ _ => rfl) id
    (fun n t hm => .inl ⟨hm, id⟩) (fun _ => rfl) (by simp) ⟨by simp, rfl⟩ hst
  · intro k
    change (if k = i.key then none else s.files k) = s.files k ∨ _
    split
    · next hk => exact .inr ⟨if_pos hk, .inl hk⟩
    · exact .inl rfl
  · exact fun htrue => by cases h.temp_stage hw htrue

theorem Inv.dropFolder (hw : s.writer = .busy i .dropFolder) :
    Inv ((s.removeFolder i.key.1).stage i (.dec true)) := by
  obtain ⟨hdead, hmark⟩ := h.stage i _ hw
  exact h.folder hw rfl hdead hmark rfl (by simp) hdead

theorem Inv.skipPop (hw : s.writer = .busy i .skipPop) : Inv ((s.popPending i.key).stage i .skipRemove) := by
  obtain ⟨hmark, hwipes⟩ := h.stage i _ hw
  have hdead : ¬ ((s.popPending i.key).stage i .skipRemove).Live i.key := not_live_iff.2 (Dict.get?_erase_self _ _)
  exact h.move (i := i)
    { writer := hw
      writer' := rfl
      queue := rfl
      caller := rfl
      pending := fun k hk => Dict.get?_erase_ne _ hk
      files := fun _ _ => .inl rfl
      temps := fun _ _ => id
      cancelled := fun _ _ => rfl
      unmarked := id
      current := fun _ => rfl
      lost := fun _ _ => rfl
      written := fun _ _ => rfl
      swept := fun _ => rfl
      touches := rfl
      owes := fun _ => rfl
      begun := by simp
      before := ⟨by simp, by simp [Stage.beforeRename]⟩
      marks := fun n t hm => .inl ⟨hm, fun _ => ⟨rfl, fun _ => hdead⟩⟩
      stage := ⟨hdead, hmark⟩
      temp := fun htrue => by cases h.temp_stage hw htrue
      content := fun e he => by cases (Dict.get?_erase_self _ _).symm.trans he
      popped := fun _ hl _ => hwipes hl
      file := by
        intro c hf
        rcases h.file _ c hf with hl | hrest
        · exact .inr (.inr ((hwipes hl).sweeps _))
        · exact .inr hrest
      cur := fun hl _ => .inr (.inl (hwipes hl))
      fresh := fun hl _ => .inr (hwipes hl)
      renamed := fun hl _ _ _ => .inr (hwipes hl) }

/-- A move between two stages that do not touch the item. -/
theorem Inv.leave (hw : s.writer = .busy i st) (ht : st.touches = false) {c : ρ → Option (Nat × Nat)}
    {w : Writer ρ α} (hother : ∀ r, r ≠ i.key.1 → c r = s.cancelled r)
    (hunmarked : s.cancelled i.key.1 = none → c i.key.1 = none)
    (hw' : (w = .idle ∧ st.owes = false) ∨ ∃ st', w = .busy i st' ∧ st'.touches = false)
    (hmarks : ∀ n t, c i.key.1 = some (n, t) → (s.cancelled i.key.1 = some (n, t) ∧ w.due i.key.1 = s.writer.due i.key.1) ∨
      ∃ t', s.cancelled i.key.1 = some (n + 1, t') ∧ 1 ≤ n) : Inv { s with cancelled := c, writer := w } := by
  have htouching : w.touching = [] ∧ w.owing = [] ∧ (∀ j, w ≠ .hand j) ∧ (∀ r, r ≠ i.key.1 → w.due r = 0) ∧
      ∀ j stage, w = .busy j stage → stage.touches = false := by
    rcases hw' with ⟨rfl, -⟩ | ⟨st', rfl, ht'⟩
    · simp [Writer.touching, Writer.owing, Writer.due]
    · simp only [Writer.touching, Writer.owing, Writer.due, ht']
      refine ⟨rfl, rfl, by simp, fun r hr => if_neg fun hboth => hr hboth.2.2.symm, ?_⟩
      rintro j stage ⟨⟩
      exact ht'
  have hold : s.writer.touching = [] ∧ s.writer.owing = [] := by simp [hw, Writer.touching, Writer.owing, ht]
  have hsame : State.touching { s with cancelled := c, writer := w } = s.touching := by
    rw [State.touching, State.touching, htouching.1, hold.1]
  have hsame' : State.owing { s with cancelled := c, writer := w } = s.owing := by
    rw [State.owing, State.owing, htouching.2.1, hold.2]
  have howed : ∀ r, State.owed { s with cancelled := c, writer := w } r = w.due r +
      s.queue.countP (fun j => decide (j.key.1 = r ∧ ¬ s.Live j.key)) := by
    intro r
    rw [State.owed, hsame', State.owing, hold.2]
    rfl
  have howed' : ∀ r, s.owed r = s.writer.due r +
      s.queue.countP (fun j => decide (j.key.1 = r ∧ ¬ s.Live j.key)) := by
    intro r
    rw [State.owed, State.owing, hold.2]
    rfl
  have hdue : ∀ r, s.writer.due r ≤ 1 := by
    intro r
    rw [hw, Writer.due]
    split <;> omega
  have hbusy : s.writer.holds = true := by rw [hw]; rfl
  exact
  { h with
    keys := hsame ▸ h.keys
    apart := hsame ▸ h.apart
    content := hsame ▸ h.content
    kept := hsame ▸ h.kept
    fifo := hsame' ▸ h.fifo
    lock := fun hholds => by cases (h.lock hholds).symm.trans hbusy
    marks := by
      intro r n t hm
      rw [howed]
      by_cases hr : r = i.key.1
      · subst hr
        rcases hmarks n t hm with ⟨hold, hdue'⟩ | ⟨t', hold, hpos⟩
        · rw [hdue', ← howed']
          exact h.marks _ n t hold
        · refine ⟨hpos, (h.marks _ _ t' hold).2.imp_left fun hle => ?_⟩
          rw [howed'] at hle
          have := hdue i.key.1
          omega
      · have hm' := (hother r hr).symm.trans hm
        have hd : s.writer.due r = 0 := by
          rw [hw, Writer.due, if_neg fun hboth => hr hboth.2.2.symm]
        have hm := h.marks r n t hm'
        rwa [howed', hd, ← htouching.2.2.2.1 r hr] at hm
    stage := fun j stage hj => .of_not_touches (by simp [htouching.2.2.2.2 j stage hj])
    temps := by
      intro k hk
      have hj := h.temp_stage hw hk
      revert ht hj
      cases st <;> simp [Stage.withTemp, Stage.touches]
    gone := hsame ▸ h.gone
    fresh := by
      intro k v hm hc
      refine h.fresh k v ?_ hc
      by_cases hr : k.1 = i.key.1
      · rw [hr]
        exact mt hunmarked (hr ▸ hm)
      · rwa [← hother _ hr]
    quiet := by
      intro r hr
      refine ⟨(h.quiet r hr).1, fun j stage hj _ htrue => ?_⟩
      cases (htouching.2.2.2.2 j stage hj).symm.trans htrue
    timedOut := by
      intro hc
      refine ⟨htouching.2.2.1, fun j stage hj hor => ?_⟩
      have hfalse := htouching.2.2.2.2 j stage hj
      revert hor hfalse
      cases stage <;> simp [Stage.beforeRename, Stage.touches] }

omit h in
theorem decCancelled_eq (s : State ρ α) (rid : ρ) :
    s.decCancelled rid = { s with cancelled := (s.decCancelled rid).cancelled } := by
  unfold State.decCancelled
  split <;> rfl

omit h in
theorem decCancelled_other {r : ρ} (hr : r ≠ rid) : (s.decCancelled rid).cancelled r = s.cancelled r := by
  unfold State.decCancelled
  split
  · exact if_neg hr
  · rfl

omit h in
theorem decCancelled_self {n t : Nat} (hm : (s.decCancelled rid).cancelled rid = some (n, t)) :
    ∃ t', s.cancelled rid = some (n + 1, t') ∧ 1 ≤ n := by
  unfold State.decCancelled at hm
  split at hm
  · next count created hc =>
    replace hm := (if_pos rfl).symm.trans hm
    split at hm
    · cases hm
    · cases hm
      exact ⟨t, by rw [hc]; congr 2; omega, by omega⟩
  · next hc =>
    cases hc.symm.trans hm

omit h in
theorem decCancelled_none (hm : s.cancelled rid = none) : (s.decCancelled rid).cancelled rid = none := by
  unfold State.decCancelled
  rw [hm]
  exact hm

theorem Inv.dec {final : Bool} (hw : s.writer = .busy i (.dec final)) :
    Inv ((s.decCancelled i.key.1).stage i (if final then .finish else .release)) := by
  have heq := decCancelled_eq s i.key.1
  rw [heq]
  cases final with
  | false =>
    exact h.leave hw rfl (fun r hr => decCancelled_other hr) decCancelled_none (.inr ⟨_, rfl, rfl⟩)
      fun n t hm => .inr (decCancelled_self hm)
  | true =>
    have hdead := h.stage i _ hw
    refine h.undo hw rfl hdead rfl rfl rfl rfl (fun _ => rfl) (fun _ => .inl rfl) (fun _ => id) ?_
      (fun r hr => decCancelled_other hr) decCancelled_none (fun n t hm => .inr (decCancelled_self hm))
      (fun _ => rfl) (by simp) ⟨by simp, rfl⟩ fun hl => absurd hl hdead
    exact fun htrue => by cases h.temp_stage hw htrue

theorem Inv.clearedCheck (hw : s.writer = .busy i .clearedCheck) : Inv (s.branch i (.dec false) .release) := by
  rw [branch_eq]
  split
  · refine h.leave hw rfl (fun _ _ => rfl) id (.inr ⟨_, rfl, rfl⟩) fun n t hm => .inl ⟨hm, ?_⟩
    rw [hw]
    rfl
  · refine h.leave hw rfl (fun r hr => if_neg hr) (fun _ => if_pos rfl) (.inr ⟨_, rfl, rfl⟩) fun n t hm => ?_
    cases (if_pos rfl).symm.trans hm

theorem Inv.release (hw : s.writer = .busy i .release) : Inv { s with writer := .idle } := by
  refine h.leave hw rfl (fun _ _ => rfl) id (.inl ⟨rfl, rfl⟩) fun n t hm => .inl ⟨hm, ?_⟩
  rw [hw]
  simp [Writer.due, Stage.owes]

/-- A move after which the item is buffered as before. -/
theorem Inv.store (hw : s.writer = .busy i st) (ht : st.touches = true)
    (hw' : s'.writer = .busy i st') (hqueue : s'.queue = s.queue) (hcaller : s'.caller = s.caller)
    (hpending : s'.pending = s.pending) (hcancelled : s'.cancelled = s.cancelled)
    (hfiles : ∀ k, k ≠ i.key → s'.files k = s.files k) (htemps : ∀ k, k ≠ i.key → s'.temps k = true → s.temps k = true)
    (hcurrent : ∀ k, current k s'.events = current k s.events)
    (hlost : ∀ k, k ≠ i.key → lost k s'.events = lost k s.events)
    (hwritten : ∀ k, k ≠ i.key → writtenSince k s'.events = writtenSince k s.events)
    (hswept : ∀ r, sweptLast r s'.events = sweptLast r s.events)
    (hshape : st.owes = true ∧ st'.owes = true ∧ st'.touches = true ∧ st ≠ .lookup ∧ st' ≠ .lookup)
    (hbefore : st'.beforeRename = true → st.beforeRename = true) (hstage : AtStage s' i st')
    (htemp : s'.temps i.key = true → st'.withTemp = true)
    (hfile : ∀ c, s'.files i.key = some c → s'.Live i.key ∨ s.files i.key = some c ∨ s.caller.sweeps i.key.1) :
    Inv s' := by
  obtain ⟨ho, ho', ht', hl, hl'⟩ := hshape
  have hlive : ∀ {k}, s'.Live k ↔ s.Live k := by
    intro k
    rw [State.Live, State.Live, hpending]
  exact h.move (i := i)
    { writer := hw
      writer' := hw'
      queue := hqueue
      caller := hcaller
      pending := fun k _ => by rw [hpending]
      files := fun k hk => .inl (hfiles k hk)
      temps := htemps
      cancelled := fun r _ => by rw [hcancelled]
      unmarked := by rw [hcancelled]; exact id
      current := hcurrent
      lost := hlost
      written := hwritten
      swept := hswept
      touches := ht
      owes := fun _ => ho
      begun := fun hst => absurd hst hl
      before := ⟨hl', fun hb => .inr (hbefore hb)⟩
      marks := by
        intro n t hm
        rw [hcancelled] at hm
        exact .inl ⟨hm, fun hd => ⟨ho', fun _ hl => hd.2 ht (hlive.1 hl)⟩⟩
      stage := hstage
      temp := htemp
      content := by
        intro e he
        rw [hpending] at he
        have hl := live_iff.2 ⟨e, he⟩
        obtain rfl := Option.some.inj ((h.item hw ht hl).symm.trans he)
        exact ⟨hl, rfl, ht'.symm, fun hx => by cases hx⟩
      popped := fun _ hl hd => absurd (hlive.2 hl) hd
      file := by
        intro c hf
        rcases hfile c hf with hl | hf | hs
        · exact .inl hl
        · exact (h.file _ c hf).imp_left hlive.2
        · exact .inr (.inr hs)
      cur := fun hl _ => .inl (by rw [hpending]; exact h.item hw ht hl)
      fresh := fun hl _ => .inl ⟨hlive.2 hl, ht'⟩
      renamed := fun hl hd => absurd (hlive.2 hl) hd }

theorem Inv.write (hw : s.writer = .busy i .write) (ok left : Bool) :
    Inv (if ok then (s.setTemp i.key true).stage i .checkTemp else (s.setTemp i.key left).stage i .failed) := by
  have hst := h.stage i _ hw
  have htemps : ∀ b k, k ≠ i.key → (s.setTemp i.key b).temps k = true → s.temps k = true := by
    intro b k hk htrue
    exact (if_neg hk).symm.trans htrue
  split
  · exact h.store hw rfl rfl rfl rfl rfl rfl (fun _ _ => rfl) (htemps true) (fun _ => rfl) (fun _ _ => rfl)
      (fun _ _ => rfl) (fun _ => rfl) ⟨rfl, rfl, rfl, by simp, by simp⟩ (fun _ => rfl) hst (fun _ => rfl)
      fun c hf => .inr (.inl hf)
  · exact h.store hw rfl rfl rfl rfl rfl rfl (fun _ _ => rfl) (htemps left) (fun _ => rfl) (fun _ _ => rfl)
      (fun _ _ => rfl) (fun _ => rfl) ⟨rfl, rfl, rfl, by simp, by simp⟩ (by simp [Stage.beforeRename]) hst.2 (fun _ => rfl)
      fun c hf => .inr (.inl hf)

theorem Inv.rename (hw : s.writer = .busy i .rename) (ok : Bool) :
    Inv (if ok && s.temps i.key then
        (((s.setTemp i.key false).setFile i.key (some i.content)).log (.written i.key)).stage i .enforce
      else s.stage i .failed) := by
  obtain ⟨hgone, hclean⟩ := h.stage i _ hw
  split
  · next hboth =>
    rw [Bool.and_eq_true] at hboth
    have hsweeps : ¬ s.Live i.key → s.caller.sweeps i.key.1 := by
      intro hd
      refine (hgone hd).resolve_left fun hf => ?_
      cases hf.symm.trans hboth.2
    refine h.store hw rfl rfl rfl rfl rfl rfl (fun k hk => if_neg hk) ?_ (fun _ => rfl) (fun _ _ => rfl) ?_ (fun _ => rfl)
      ⟨rfl, rfl, rfl, by simp, by simp⟩ (by simp [Stage.beforeRename]) ?_ ?_ ?_
    · intro k hk htrue
      exact (if_neg hk).symm.trans htrue
    · intro k hk
      exact if_neg fun heq => hk heq.symm
    · exact ⟨fun hd => .inr (hsweeps hd), fun hl => ⟨hclean hl, .inr ⟨if_pos rfl, if_pos rfl⟩⟩⟩
    · intro htrue
      cases (if_pos rfl).symm.trans htrue
    · intro c _
      by_cases hl : s.Live i.key
      · exact .inl hl
      · exact .inr (.inr (hsweeps hl))
  · exact h.store hw rfl rfl rfl rfl rfl rfl (fun _ _ => rfl) (fun _ _ => id) (fun _ => rfl) (fun _ _ => rfl)
      (fun _ _ => rfl) (fun _ => rfl) ⟨rfl, rfl, rfl, by simp, by simp⟩ (by simp [Stage.beforeRename]) hclean (fun _ => rfl)
      fun c hf => .inr (.inl hf)

theorem Inv.failed (hw : s.writer = .busy i .failed) :
    Inv ((((s.setTemp i.key false).setFile i.key none).log (.failed i.key)).stage i .failedCheck) := by
  have hclean := h.stage i _ hw
  refine h.store hw rfl rfl rfl rfl rfl rfl (fun k hk => if_neg hk) ?_ (fun _ => rfl) ?_ (fun _ _ => rfl) (fun _ => rfl)
    ⟨rfl, rfl, rfl, by simp, by simp⟩ (by simp [Stage.beforeRename]) ?_ ?_ ?_
  · intro k hk htrue
    exact (if_neg hk).symm.trans htrue
  · intro k hk
    exact if_neg fun heq => hk heq.symm
  · exact fun hl => ⟨hclean hl, .inl ⟨if_pos rfl, if_pos rfl⟩⟩
  · intro htrue
    cases (if_pos rfl).symm.trans htrue
  · intro c hf
    cases (if_pos rfl).symm.trans hf

/-- The last section keeps of the entry what the file does not have. -/
theorem Inv.finish (hw : s.writer = .busy i .finish) : Inv (processWriteItem s i ok left .finish) := by
  have hst := h.stage i _ hw
  have hnotemp : s.temps i.key ≠ true := fun htrue => by cases h.temp_stage hw htrue
  have hnodue : ¬ due s i .finish := fun hd => by cases hd.1
  by_cases hl : s.Live i.key
  · have hp := h.item hw rfl hl
    obtain ⟨hmark, hsettled⟩ := hst hl
    have hnosave : ¬ s.caller.saves i.key := fun hs => h.apart _ hs i (mem_touching hw rfl) rfl
    rcases hsettled with ⟨hf, hlost⟩ | ⟨hf, hwritten⟩
    · have hget : (s.pending.set i.key ⟨i.content, false⟩).get? i.key = some ⟨i.content, false⟩ :=
        Dict.get?_set_self _ _ _
      have heq : processWriteItem s i ok left .finish =
          State.stage { s with pending := s.pending.set i.key ⟨i.content, false⟩ } i .release := by
        simp [processWriteItem, hp, hf]
      rw [heq]
      exact h.move (i := i)
        { writer := hw
          writer' := rfl
          queue := rfl
          caller := rfl
          pending := fun k hk => Dict.get?_set_ne _ _ hk
          files := fun _ _ => .inl rfl
          temps := fun _ _ => id
          cancelled := fun _ _ => rfl
          unmarked := id
          current := fun _ => rfl
          lost := fun _ _ => rfl
          written := fun _ _ => rfl
          swept := fun _ => rfl
          touches := rfl
          owes := by simp [Stage.owes]
          begun := by simp
          before := ⟨by simp, by simp [Stage.beforeRename]⟩
          marks := fun n t hm => .inl ⟨hm, fun hd => absurd hd hnodue⟩
          stage := trivial
          temp := fun htrue => absurd htrue hnotemp
          content := by
            intro e he
            obtain rfl := Option.some.inj (he.symm.trans hget)
            exact ⟨hl, rfl, rfl, fun _ => hf⟩
          popped := by simp [Stage.touches]
          file := fun c hc => by cases hf.symm.trans hc
          cur := fun _ hnot => by cases hlost.symm.trans hnot
          fresh := fun _ hm => absurd hmark hm
          renamed := fun _ hd => absurd (live_iff.2 ⟨_, hget⟩) hd }
    · have hget : (s.pending.erase i.key).get? i.key = none := Dict.get?_erase_self _ _
      have heq : processWriteItem s i ok left .finish = (s.popPending i.key).stage i .release := by
        simp [processWriteItem, hp, hf]
      rw [heq]
      exact h.move (i := i)
        { writer := hw
          writer' := rfl
          queue := rfl
          caller := rfl
          pending := fun k hk => Dict.get?_erase_ne _ hk
          files := fun _ _ => .inl rfl
          temps := fun _ _ => id
          cancelled := fun _ _ => rfl
          unmarked := id
          current := fun _ => rfl
          lost := fun _ _ => rfl
          written := fun _ _ => rfl
          swept := fun _ => rfl
          touches := rfl
          owes := by simp [Stage.owes]
          begun := by simp
          before := ⟨by simp, by simp [Stage.beforeRename]⟩
          marks := fun n t hm => .inl ⟨hm, fun hd => absurd hd hnodue⟩
          stage := trivial
          temp := fun htrue => absurd htrue hnotemp
          content := fun e he => by cases hget.symm.trans he
          popped := by simp [Stage.touches]
          file := by
            intro c hc
            obtain rfl := Option.some.inj (hf.symm.trans hc)
            rcases h.known _ _ hp with hk | hs | hwipes
            · exact .inr (.inl hk)
            · exact absurd hs hnosave
            · exact .inr (.inr (hwipes.sweeps _))
          cur := fun _ _ => .inr (.inr ⟨hf, not_live_iff.2 hget⟩)
          fresh := fun _ hm => absurd hmark hm
          renamed := fun _ _ _ _ => .inl hwritten }
  · have heq : processWriteItem s i ok left .finish = s.stage i .release := by
      simp [processWriteItem, not_live_iff.1 hl]
    rw [heq]
    exact h.undo hw rfl hl rfl rfl rfl rfl (fun _ => rfl) (fun _ => .inl rfl) (fun _ => id)
      (fun htrue => absurd htrue hnotemp) (fun _ _ => rfl) id (fun n t hm => .inl ⟨hm, fun hd => absurd hd hnodue⟩)
      (by simp [Stage.owes]) (by simp) ⟨by simp, rfl⟩ trivial

end

/-- One step of `_process_write_item` keeps the books. -/
theorem Inv.process (h : Inv s) (hw : s.writer = .busy i st) (ok left : Bool)
    (hok : ¬ s.Live i.key → s.expired i.key.1 = true → st ≠ .check ∧ (st = .checkTemp → s.temps i.key = false)) :
    Inv (processWriteItem s i ok left st) := by
  cases st with
  | lookup => exact h.lookup hw
  | clearedCheck => exact h.clearedCheck hw
  | check => exact h.check hw fun hd hx => (hok hd hx).1 rfl
  | skipPop => exact h.skipPop hw
  | skipRemove => exact h.skipRemove hw
  | write => exact h.write hw ok left
  | checkTemp => exact h.checkTemp hw fun hd hx => (hok hd hx).2 rfl
  | dropTemp => exact h.dropTemp hw
  | dropPending => exact h.dropPending hw
  | rename => exact h.rename hw ok
  | enforce => exact h.enforce hw
  | checkFile => exact h.checkFile hw
  | dropFile => exact h.dropFile hw
  | dropFolder => exact h.dropFolder hw
  | failed => exact h.failed hw
  | failedCheck => exact h.failedCheck hw
  | dec final => exact h.dec hw
  | finish => exact h.finish hw
  | release => exact h.release hw

theorem Inv.take {rest : List (Item ρ α)} (h : Inv s) (hw : s.writer = .idle) (hqueue : s.queue = i :: rest) :
    Inv { s with writer := .hand i, queue := rest } := by
  have htouching : State.touching { s with writer := .hand i, queue := rest } = s.touching := by
    simp [State.touching, hw, hqueue, Writer.touching]
  have howing : State.owing { s with writer := .hand i, queue := rest } = s.owing := by
    simp [State.owing, hw, hqueue, Writer.owing]
  have howed : ∀ r, State.owed { s with writer := .hand i, queue := rest } r = s.owed r := by
    intro r
    rw [State.owed, State.owed, howing, hw]
    rfl
  exact
  { h with
    keys := htouching ▸ h.keys
    apart := htouching ▸ h.apart
    content := htouching ▸ h.content
    kept := htouching ▸ h.kept
    fifo := howing ▸ h.fifo
    lock := fun _ => rfl
    drained := fun hc => by cases (h.drained hc).symm.trans hqueue
    marks := fun r n t hm => howed r ▸ h.marks r n t hm
    stage := fun j stage hj => by cases hj
    temps := by
      intro k hk
      obtain ⟨j, stage, hwj, -⟩ := h.temps k hk
      cases hw.symm.trans hwj
    gone := htouching ▸ h.gone
    quiet := fun r hr => ⟨(h.quiet r hr).1, fun j stage hj => by cases hj⟩
    timedOut := by
      intro hc
      cases (h.drained (.inr ⟨_, hc⟩)).symm.trans hqueue }

theorem Inv.acquired (h : Inv s) (hw : s.writer = .hand i) (hfree : s.caller.holds = false) :
    Inv (s.stage i .lookup) := by
  have htouching : (s.stage i .lookup).touching = s.touching := by
    rw [State.touching, State.touching, hw]
    rfl
  have howing : (s.stage i .lookup).owing = s.owing := by
    rw [State.owing, State.owing, hw]
    rfl
  have howed : ∀ r, (s.stage i .lookup).owed r = s.owed r := by
    intro r
    rw [State.owed, State.owed, howing, hw]
    rfl
  exact
  { h with
    keys := htouching ▸ h.keys
    apart := htouching ▸ h.apart
    content := htouching ▸ h.content
    kept := htouching ▸ h.kept
    fifo := howing ▸ h.fifo
    lock := fun hholds => by cases hfree.symm.trans hholds
    marks := fun r n t hm => howed r ▸ h.marks r n t hm
    stage := by
      intro j stage hj
      cases hj
      trivial
    temps := by
      intro k hk
      obtain ⟨j, stage, hwj, -⟩ := h.temps k hk
      cases hw.symm.trans hwj
    gone := htouching ▸ h.gone
    quiet := by
      intro r hr
      refine ⟨(h.quiet r hr).1, ?_⟩
      intro j stage hj _ _
      cases hj
      rfl
    timedOut := fun hc => absurd hw ((h.timedOut hc).1 i) }

theorem Inv.evict (h : Inv s) (hw : s.writer = .busy i .enforce) {key : Key ρ} {c : α} (hf : s.files key = some c) :
    Inv ((s.setFile key none).log (.evicted key)) := by
  have hst := h.stage i _ hw
  have hfiles : ∀ {k v}, (s.setFile key none).files k = some v → k ≠ key ∧ s.files k = some v := by
    intro k v hk
    replace hk : (if k = key then none else s.files k) = some v := hk
    split at hk
    · cases hk
    · next hne => exact ⟨hne, hk⟩
  have hlost : ∀ {k}, k ≠ key → lost k (.evicted key :: s.events) = lost k s.events :=
    fun hk => if_neg fun heq => hk heq.symm
  have hlost' : lost key (.evicted key :: s.events) = (writtenSince key s.events || lost key s.events) := if_pos rfl
  exact
  { h with
    stage := by
      intro j stage hj
      obtain ⟨rfl, rfl⟩ : i = j ∧ Stage.enforce = stage := by
        have heq := hw.symm.trans hj
        cases heq
        exact ⟨rfl, rfl⟩
      by_cases hk : i.key = key
      · refine ⟨fun _ => .inl (if_pos hk), fun hl => ⟨(hst.2 hl).1, .inl ⟨if_pos hk, ?_⟩⟩⟩
        rcases (hst.2 hl).2 with ⟨hnone, -⟩ | ⟨-, hwritten⟩
        · cases hnone.symm.trans (hk ▸ hf)
        · change lost i.key (.evicted key :: s.events) = true
          rw [hk, hlost', ← hk, hwritten]
          rfl
      · exact @AtStage.mono _ _ _ _ _ _ .enforce hst Iff.rfl rfl (if_neg hk) id id id (hlost hk).trans id
    leftover := by
      intro k v hk
      change (if k = key then none else s.files k) = none
      split
      · rfl
      · exact h.leftover k v hk
    file := fun k v hk => h.file k v (hfiles hk).2
    older := fun k hs v hk => h.older k hs v (hfiles hk).2
    cur := by
      intro k v hc hl
      by_cases hk : k = key
      · subst hk
        replace hl := hlost'.symm.trans hl
        rw [Bool.or_eq_false_iff] at hl
        rcases h.cur k v hc hl.2 with hp | ⟨hf', hs⟩
        · exact .inl hp
        · cases hl.1.symm.trans (h.written k v hf' hc hs)
      · rcases h.cur k v hc ((hlost hk).symm.trans hl) with hp | ⟨hf', hs⟩
        · exact .inl hp
        · exact .inr ⟨(if_neg hk).trans hf', hs⟩
    written := fun k v hk hc hs => h.written k v (hfiles hk).2 hc hs
    quiet := by
      intro r hr
      obtain ⟨hnone, hbusy⟩ := h.quiet r hr
      refine ⟨fun k hk => ⟨(hnone k hk).1, ?_, (hnone k hk).2.2⟩, hbusy⟩
      change (if k = key then none else s.files k) = none
      split
      · rfl
      · exact (hnone k hk).2.1 }

end FusionMlx.SnapshotStore
