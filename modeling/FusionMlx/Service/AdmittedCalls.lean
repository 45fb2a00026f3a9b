import FusionMlx.Service.CapRefinement

/-!
# The calls a client gets

A parser streams calls one after another, each an anchor with a name and then
bare fragments of its arguments. What passes both filters is all deltas of the
admitted calls and nothing else exactly when nothing of an earlier call passes
the tool-choice filter, everything of the admitted one does, and behind it the
mark of the dropped anchor stands where the next fragment looks at it.
-/
namespace FusionMlx.Service.ToolCallGate

open JsonText Transducers

structure Call where
  anchor : ToolCallDelta Unit
  fragments : List (ToolCallDelta Unit)
  named : anchor.anchorName.getD [] ≠ []
  bare : ∀ f ∈ fragments, f.anchorName = none ∧ f.hasId = false ∧
    (f.index = none ∨ f.index = anchor.index)

def ToolCallDelta.number (n : Nat) (tc : ToolCallDelta Unit) : ToolCallDelta Nat where
  index := tc.index
  id := tc.id
  function := tc.function
  name := tc.name
  arguments := tc.arguments
  rest := n

namespace Call

def deltas (n : Nat) (c : Call) : List (ToolCallDelta Nat) :=
  (c.anchor :: c.fragments).map (ToolCallDelta.number n)

def stream : Nat → List Call → List (ToolCallDelta Nat)
  | _, [] => []
  | n, c :: cs => c.deltas n ++ stream (n + 1) cs

end Call

open Call

variable {req : Request} {calls : List Call} {batches : List (List (ToolCallDelta Nat))}

/-- The deltas `out` are those of the admitted calls. -/
def Respects (req : Request) (calls : List Call) (out : List (ToolCallDelta Nat)) : Prop :=
  ∃ admitted : Nat → Bool,
    out = (stream 0 calls).filter (fun tc => admitted tc.rest) ∧
      (∀ name, req.forcedToolChoiceName = some name →
        ∀ n c, calls[n]? = some c → admitted n → c.anchor.anchorName = some name) ∧
      (req.forcedToolChoiceName ≠ none ∨ req.parallelToolCallsAllowed = false →
        ∀ i j, i < calls.length → j < calls.length → admitted i → admitted j → i = j)

def keeps (req : Request) (calls : List Call) : ToolCallDelta Nat → Bool :=
  passes req (firstId req (stream 0 calls))

/-- All of the `n`-th call passes the tool-choice filter and nothing of an earlier one; of the later
ones nothing does, or under the cap nothing that belongs to the call or that finds the mark of the
dropped anchor amiss. -/
structure Singled (req : Request) (calls : List Call) (batches : List (List (ToolCallDelta Nat)))
    (n : Nat) (c : Call) : Prop where
  first : ∀ tc ∈ stream 0 calls, tc.rest < n → keeps req calls tc = false
  whole : ∀ tc ∈ stream 0 calls, tc.rest = n → keeps req calls tc = true
  alone : req.parallelToolCallsAllowed = true →
    ∀ tc ∈ stream 0 calls, n < tc.rest → keeps req calls tc = false
  resumed : req.parallelToolCallsAllowed = false →
    ∀ tc ∈ stream 0 calls, n < tc.rest → keeps req calls tc = true →
      continues (c.anchor.number n) tc = false
  joined : req.parallelToolCallsAllowed = false →
    ∀ tc ∈ marks (keeps req calls) false batches, tc.2.rest = n → free tc.2 → tc.1 = false
  parted : req.parallelToolCallsAllowed = false →
    ∀ tc, (marks (keeps req calls) false batches).find? (fun tc => n < tc.2.rest) = some tc →
      free tc.2 → tc.1 = true

variable {tc : ToolCallDelta Nat}

theorem deltas_rest {n : Nat} {c : Call} (h : tc ∈ c.deltas n) :
    tc.rest = n := by
  obtain ⟨tc, -, rfl⟩ := List.mem_map.1 h
  rfl

theorem stream_lt {n : Nat} (h : tc ∈ stream n calls) :
    n ≤ tc.rest ∧ tc.rest < n + calls.length := by
  induction calls generalizing n with
  | nil => simp [stream] at h
  | cons c cs ih =>
    rw [stream, List.mem_append] at h
    rcases h with h | h
    · simp [deltas_rest h]
    · have := ih h
      simp only [List.length_cons]
      omega

/-- The stream around one call. -/
theorem stream_split {n k : Nat} {c : Call} (h : calls[k]? = some c) :
    ∃ before after, stream n calls = before ++ c.deltas (n + k) ++ after ∧
      (∀ tc ∈ before, tc.rest < n + k) ∧ ∀ tc ∈ after, n + k < tc.rest := by
  induction calls generalizing n k with
  | nil => simp at h
  | cons d ds ih =>
    cases k with
    | zero =>
      obtain rfl : d = c := by simpa using h
      exact ⟨[], stream (n + 1) ds, rfl, by simp, fun tc htc => (stream_lt htc).1⟩
    | succ k =>
      obtain ⟨before, after, hsplit, hb, ha⟩ := ih (n := n + 1) (k := k) (by simpa using h)
      refine ⟨d.deltas n ++ before, after, ?_, ?_, ?_⟩
      · simp [stream, hsplit, Nat.add_right_comm, Nat.add_assoc]
      · intro tc htc
        rcases List.mem_append.1 htc with htc | htc
        · rw [deltas_rest htc]; omega
        · have := hb tc htc; omega
      · intro tc htc
        have := ha tc htc; omega

theorem mem_stream (h : tc ∈ stream 0 calls) :
    ∃ c, calls[tc.rest]? = some c ∧ tc ∈ c.deltas tc.rest := by
  have hlt := (stream_lt h).2
  rw [Nat.zero_add] at hlt
  have hget : calls[tc.rest]? = some calls[tc.rest] := List.getElem?_eq_getElem hlt
  obtain ⟨before, after, hsplit, hb, ha⟩ := stream_split (n := 0) hget
  rw [Nat.zero_add] at hsplit hb ha
  rw [hsplit, List.mem_append, List.mem_append] at h
  rcases h with (h | h) | h
  · exact absurd (hb tc h) (lt_irrefl _)
  · exact ⟨_, hget, h⟩
  · exact absurd (ha tc h) (lt_irrefl _)

theorem stream_filter {n : Nat} {c : Call} (h : calls[n]? = some c) :
    (stream 0 calls).filter (fun tc => tc.rest = n) = c.deltas n := by
  obtain ⟨before, after, hsplit, hb, ha⟩ := stream_split (n := 0) h
  rw [Nat.zero_add] at hsplit hb ha
  have hb' : before.filter (fun tc => tc.rest = n) = [] :=
    List.filter_eq_nil_iff.2 (fun tc htc => by simpa using (hb tc htc).ne)
  have ha' : after.filter (fun tc => tc.rest = n) = [] :=
    List.filter_eq_nil_iff.2 (fun tc htc => by simpa using (ha tc htc).ne')
  have hc' : (c.deltas n).filter (fun tc => tc.rest = n) = c.deltas n :=
    List.filter_eq_self.2 (fun tc htc => by simpa using deltas_rest htc)
  rw [hsplit, List.filter_append, List.filter_append, hb', ha', hc', List.nil_append, List.append_nil]

theorem anchor_mem (n : Nat) (c : Call) : c.anchor.number n ∈ c.deltas n := by simp [deltas]

theorem deltas_mem {n : Nat} {c : Call} (h : calls[n]? = some c)
    (htc : tc ∈ c.deltas n) : tc ∈ stream 0 calls :=
  List.mem_of_mem_filter (stream_filter h ▸ htc)

theorem isAnchor_of_anchorName {α : Type} {tc : ToolCallDelta α} (h : tc.anchorName.getD [] ≠ []) :
    tc.isAnchor := by
  unfold ToolCallDelta.anchorName at h
  unfold ToolCallDelta.isAnchor
  split at h
  · rename_i hw
    simp [ToolCallDelta.hasWrappedName, hw]
  · simp [ToolCallDelta.hasFlatName, h]

theorem not_isAnchor {α : Type} {tc : ToolCallDelta α} (h : tc.anchorName = none)
    (hid : tc.hasId = false) : tc.isAnchor = false := by
  unfold ToolCallDelta.anchorName at h
  split at h
  · cases h
  · rename_i hw
    have hwrapped : tc.wrappedName.getD [] = [] := by
      cases hv : tc.wrappedName with
      | none => rfl
      | some n =>
        cases n with
        | nil => rfl
        | cons x n => exact absurd hv (hw x n)
    simp [ToolCallDelta.isAnchor, ToolCallDelta.hasWrappedName, ToolCallDelta.hasFlatName, hid,
      hwrapped, h]

/-- A fragment is bare or has the index of its call. -/
theorem fragment_continues {n : Nat} {c : Call}
    (h : tc ∈ c.fragments.map (ToolCallDelta.number n)) :
    continues (c.anchor.number n) tc ∨ free tc := by
  obtain ⟨f, hf, rfl⟩ := List.mem_map.1 h
  obtain ⟨hname, hid, hidx⟩ := c.bare f hf
  have hanchor : (f.number n).isAnchor = false := not_isAnchor hname hid
  cases hi : f.index with
  | none =>
    have hnone : (f.number n).index = none := hi
    exact .inr (by simp [free, hanchor, hnone])
  | some i =>
    have hc : c.anchor.index = some i := by simpa [hi, eq_comm] using hidx
    exact .inl (by simp [continues, ToolCallDelta.number, hi, hc])

theorem anchor_not_free (n : Nat) (c : Call) : free (c.anchor.number n) = false := by
  have h : (c.anchor.number n).isAnchor := isAnchor_of_anchorName c.named
  simp [free, h]

section Behind

variable {α : Type} {a : ToolCallDelta α} {m : List (Bool × ToolCallDelta α)}

theorem free_of_continues {tc : ToolCallDelta α} (h : continues a tc) : free tc = false := by
  unfold continues at h
  unfold free
  split at h
  · simp_all
  · simp_all

/-- A bare delta that comes marked is lost. -/
theorem admitMarked_raised {tc : ToolCallDelta α} {f : Bool} (hc : continues a tc = false)
    (hf : free tc) (r : Bool) :
    admitMarked (some (a, f)) (r, tc) = (some (a, f || r), if f || r then [] else [tc]) := by
  simp [admitMarked, raise, admitDelta, hc, hf]

theorem admitMarked_continues {tc : ToolCallDelta α} (hc : continues a tc) (f r : Bool) :
    admitMarked (some (a, f)) (r, tc) = (some (a, false), [tc]) := by
  simp [admitMarked, raise, admitDelta, hc]

theorem admitMarked_other {tc : ToolCallDelta α} (hc : continues a tc = false) (hf : free tc = false)
    (f r : Bool) : admitMarked (some (a, f)) (r, tc) = (some (a, true), []) := by
  simp [admitMarked, raise, admitDelta, hc, hf]

/-- Nothing passes that did not come in. -/
theorem admitMarked_sublist (f : Bool) :
    (feed admitMarked (some (a, f)) m).2.Sublist (m.map Prod.snd) := by
  induction m generalizing f with
  | nil => exact List.Sublist.slnil
  | cons tc m ih =>
    obtain ⟨r, tc⟩ := tc
    rw [feed_cons, List.map_cons]
    by_cases hc : continues a tc
    · rw [admitMarked_continues hc]
      exact (ih false).cons_cons _
    have hc : continues a tc = false := by simpa using hc
    by_cases hf : free tc
    · rw [admitMarked_raised hc hf]
      by_cases hr : f || r
      · simpa [hr] using (ih true).cons tc
      · simpa [hr] using (ih false).cons_cons tc
    · rw [admitMarked_other hc (by simpa using hf)]
      exact (ih true).cons _

theorem feed_admitted (r : Bool) :
    (feed admitMarked none ((r, a) :: m)).2 = a :: (feed admitMarked (some (a, false)) m).2 := rfl

theorem admitMarked_state (f : Bool) :
    ∃ f', (feed admitMarked (some (a, f)) m).1 = some (a, f') := by
  induction m generalizing f with
  | nil => exact ⟨f, rfl⟩
  | cons tc m ih =>
    obtain ⟨r, tc⟩ := tc
    rw [feed_cons]
    by_cases hc : continues a tc
    · exact admitMarked_continues hc f r ▸ ih false
    have hc : continues a tc = false := by simpa using hc
    by_cases hf : free tc
    · exact admitMarked_raised hc hf r ▸ ih (f || r)
    · exact admitMarked_other hc (by simpa using hf) f r ▸ ih true

/-- What belongs to the admitted call or is bare passes as long as no bare one comes marked. -/
theorem admitMarked_all (hm : ∀ tc ∈ m, continues a tc.2 ∨ free tc.2) :
    ((feed admitMarked (some (a, false)) m).2 = m.map Prod.snd ↔
      ∀ tc ∈ m, free tc.2 → tc.1 = false) ∧
    ((∀ tc ∈ m, free tc.2 → tc.1 = false) →
      (feed admitMarked (some (a, false)) m).1 = some (a, false)) := by
  induction m with
  | nil => simp
  | cons tc m ih =>
    obtain ⟨r, tc⟩ := tc
    have ih := ih (fun tc htc => hm tc (by simp [htc]))
    by_cases hc : continues a tc
    · have hf := free_of_continues hc
      simp only [feed_cons, admitMarked_continues hc, List.map_cons, List.cons_append,
        List.nil_append, List.cons.injEq, true_and, List.forall_mem_cons, hf, Bool.false_eq_true,
        false_implies]
      exact ih
    · have hc : continues a tc = false := by simpa using hc
      have hf : free tc := by simpa [hc] using hm (r, tc) (by simp)
      simp only [feed_cons, admitMarked_raised hc hf, List.map_cons, List.forall_mem_cons, hf,
        true_implies, Bool.false_or]
      cases r with
      | false => simpa using ih
      | true =>
        have hlen := (admitMarked_sublist (a := a) (m := m) true).length_le
        simp only [if_true, List.nil_append, Bool.true_eq_false, false_and, false_implies, and_true,
          iff_false]
        intro h
        have := congrArg List.length h
        simp only [List.length_cons] at this
        omega

/-- Behind the admitted call everything is lost if nothing belongs to it and the mark stands where
a bare delta comes first. -/
theorem admitMarked_none (f : Bool) :
    (feed admitMarked (some (a, f)) m).2 = [] ↔
      (∀ tc ∈ m, continues a tc.2 = false) ∧
        (f = false → ∀ tc, m.head? = some tc → free tc.2 → tc.1 = true) := by
  induction m generalizing f with
  | nil => simp
  | cons tc m ih =>
    obtain ⟨r, tc⟩ := tc
    rw [feed_cons]
    by_cases hc : continues a tc
    · simp [admitMarked_continues hc, hc]
    have hc : continues a tc = false := by simpa using hc
    by_cases hf : free tc
    · rw [admitMarked_raised hc hf]
      cases f <;> cases r <;> simp [ih, hc, hf]
    · have hf : free tc = false := by simpa using hf
      rw [admitMarked_other hc hf]
      simp [ih, hc, hf]

end Behind

theorem admitMarked_subset {m : List (Bool × ToolCallDelta Nat)} {a : ToolCallDelta Nat} {f : Bool}
    (h : tc ∈ (feed admitMarked (some (a, f)) m).2) : tc ∈ m.map Prod.snd :=
  (admitMarked_sublist f).subset h

structure Around (req : Request) (calls : List Call) (batches : List (List (ToolCallDelta Nat)))
    (n : Nat) (c : Call) (before after : List (ToolCallDelta Nat))
    (mb own ma : List (Bool × ToolCallDelta Nat)) : Prop where
  stream : stream 0 calls = before ++ c.deltas n ++ after
  before_lt : ∀ tc ∈ before, tc.rest < n
  after_lt : ∀ tc ∈ after, n < tc.rest
  marks : marks (keeps req calls) false batches = mb ++ own ++ ma
  before_marked : mb.map Prod.snd = before.filter (keeps req calls)
  own_marked : own.map Prod.snd = (c.deltas n).filter (keeps req calls)
  after_marked : ma.map Prod.snd = after.filter (keeps req calls)

theorem exists_around {n : Nat} {c : Call} (hb : batches.flatten = stream 0 calls)
    (h : calls[n]? = some c) :
    ∃ before after mb own ma, Around req calls batches n c before after mb own ma := by
  obtain ⟨before, after, hsplit, hbefore, hafter⟩ := stream_split (n := 0) h
  rw [Nat.zero_add] at hsplit hbefore hafter
  have hsnd := marks_snd (keeps req calls) false batches
  rw [hb, hsplit, List.filter_append, List.filter_append] at hsnd
  obtain ⟨front, ma, hm, hfront, hma⟩ := List.map_eq_append_iff.1 hsnd
  obtain ⟨mb, own, rfl, hmb, hown⟩ := List.map_eq_append_iff.1 hfront
  exact ⟨before, after, mb, own, ma, hsplit, hbefore, hafter, hm, hmb, hown, hma⟩

namespace Around

variable {n : Nat} {c : Call} {before after : List (ToolCallDelta Nat)}
  {mb own ma : List (Bool × ToolCallDelta Nat)} (h : Around req calls batches n c before after mb own ma)

include h

theorem mem :
    tc ∈ Call.stream 0 calls ↔ tc ∈ before ∨ tc ∈ c.deltas n ∨ tc ∈ after := by
  rw [h.stream, List.mem_append, List.mem_append, or_assoc]

theorem mb_lt {tc : Bool × ToolCallDelta Nat} (htc : tc ∈ mb) : tc.2.rest < n := by
  have := List.mem_map_of_mem (f := Prod.snd) htc
  exact h.before_lt _ (List.mem_of_mem_filter (h.before_marked ▸ this))

theorem own_rest {tc : Bool × ToolCallDelta Nat} (htc : tc ∈ own) : tc.2.rest = n := by
  have := List.mem_map_of_mem (f := Prod.snd) htc
  exact deltas_rest (List.mem_of_mem_filter (h.own_marked ▸ this))

theorem ma_lt {tc : Bool × ToolCallDelta Nat} (htc : tc ∈ ma) : n < tc.2.rest := by
  have := List.mem_map_of_mem (f := Prod.snd) htc
  exact h.after_lt _ (List.mem_of_mem_filter (h.after_marked ▸ this))

theorem first_iff :
    mb = [] ↔ ∀ tc ∈ Call.stream 0 calls, tc.rest < n → keeps req calls tc = false := by
  rw [← List.map_eq_nil_iff (f := Prod.snd), h.before_marked, List.filter_eq_nil_iff]
  constructor
  · intro hk tc htc hlt
    rcases h.mem.1 htc with htc | htc | htc
    · simpa using hk tc htc
    · rw [deltas_rest htc] at hlt; omega
    · have := h.after_lt tc htc; omega
  · intro hk tc htc
    simp [hk tc (h.mem.2 (.inl htc)) (h.before_lt tc htc)]

theorem whole_iff :
    own.map Prod.snd = c.deltas n ↔
      ∀ tc ∈ Call.stream 0 calls, tc.rest = n → keeps req calls tc = true := by
  rw [h.own_marked, List.filter_eq_self]
  constructor
  · intro hk tc htc hrest
    rcases h.mem.1 htc with htc | htc | htc
    · have := h.before_lt tc htc; omega
    · exact hk tc htc
    · have := h.after_lt tc htc; omega
  · intro hk tc htc
    exact hk tc (h.mem.2 (.inr (.inl htc))) (deltas_rest htc)

theorem resumed_iff (a : ToolCallDelta Nat) :
    (∀ tc ∈ ma, continues a tc.2 = false) ↔
      ∀ tc ∈ Call.stream 0 calls, n < tc.rest → keeps req calls tc = true → continues a tc = false := by
  constructor
  · intro hk tc htc hlt hkeep
    rcases h.mem.1 htc with htc | htc | htc
    · have := h.before_lt tc htc; omega
    · rw [deltas_rest htc] at hlt; omega
    · have hin : tc ∈ ma.map Prod.snd := h.after_marked ▸ List.mem_filter.2 ⟨htc, hkeep⟩
      obtain ⟨x, hx, rfl⟩ := List.mem_map.1 hin
      exact hk x hx
  · intro hk tc htc
    have hin : tc.2 ∈ after.filter (keeps req calls) :=
      h.after_marked ▸ List.mem_map_of_mem (f := Prod.snd) htc
    have hafter := List.mem_of_mem_filter hin
    exact hk tc.2 (h.mem.2 (.inr (.inr hafter))) (h.after_lt _ hafter)
      (List.of_mem_filter (p := keeps req calls) hin)

theorem joined_iff :
    (∀ tc ∈ own, free tc.2 → tc.1 = false) ↔
      ∀ tc ∈ ToolCallGate.marks (keeps req calls) false batches, tc.2.rest = n → free tc.2 →
        tc.1 = false := by
  rw [h.marks]
  constructor
  · intro hk tc htc hrest hf
    rw [List.mem_append, List.mem_append] at htc
    rcases htc with (htc | htc) | htc
    · have := h.mb_lt htc; omega
    · exact hk tc htc hf
    · have := h.ma_lt htc; omega
  · intro hk tc htc hf
    exact hk tc (by simp [htc]) (h.own_rest htc) hf

theorem find_later (hnil : mb = []) :
    (ToolCallGate.marks (keeps req calls) false batches).find? (fun tc => n < tc.2.rest) =
      ma.head? := by
  have hfront : own.find? (fun tc => decide (n < tc.2.rest)) = none :=
    List.find?_eq_none.2 (fun tc htc => by simp [h.own_rest htc])
  rw [h.marks, hnil, List.nil_append, List.find?_append, hfront, Option.none_or]
  cases ma with
  | nil => rfl
  | cons tc ma => simp [@Around.ma_lt _ _ _ _ _ _ _ _ _ _ h tc (by simp)]

/-- The first delta left is the anchor of the call that is left whole. -/
theorem anchor_first (hout : (feed admitMarked none (mb ++ own ++ ma)).2 = c.deltas n) :
    mb = [] ∧ ∃ r m, own = (r, c.anchor.number n) :: m := by
  have hhead : ∀ r tc m, (feed admitMarked none ((r, tc) :: m)).2 = c.deltas n →
      tc = c.anchor.number n := by
    intro r tc m ht
    rw [feed_admitted, deltas, List.map_cons] at ht
    exact (List.cons.inj ht).1
  match mb, own, ma with
  | (r, tc) :: mb, own, ma =>
    have hlt := @Around.mb_lt _ _ _ _ _ _ _ _ _ _ h (r, tc) (by simp)
    rw [hhead r tc _ hout] at hlt
    exact absurd hlt (lt_irrefl _)
  | [], (r, tc) :: own, ma => exact ⟨rfl, r, own, by rw [hhead r tc _ hout]⟩
  | [], [], (r, tc) :: ma =>
    have hlt := @Around.ma_lt _ _ _ _ _ _ _ _ _ _ h (r, tc) (by simp)
    rw [hhead r tc _ hout] at hlt
    exact absurd hlt (lt_irrefl _)
  | [], [], [] => simp [deltas] at hout

/-- Under the cap a call is left whole and alone exactly when its deltas and the ones behind them
come with the right marks. -/
theorem capped_deltas (hcap : req.parallelToolCallsAllowed = false) :
    (feed admitMarked none (ToolCallGate.marks (keeps req calls) false batches)).2 = c.deltas n ↔
      Singled req calls batches n c := by
  constructor
  · intro hout
    rw [h.marks] at hout
    obtain ⟨hnil, r, m, hown⟩ := h.anchor_first hout
    have hmarked := h.own_marked
    rw [hown, List.map_cons, deltas, List.map_cons] at hmarked
    rw [hnil, hown, List.nil_append, List.cons_append, feed_admitted, deltas, List.map_cons,
      List.cons.injEq] at hout
    obtain ⟨f, hstate⟩ := admitMarked_state (a := c.anchor.number n) (m := m) false
    have hout := hout.2
    rw [feed_append, hstate] at hout
    -- Nothing of a later call is left, so what is left of this one is all of it.
    have hlater : (feed admitMarked (some (c.anchor.number n, f)) ma).2 = [] := by
      refine List.eq_nil_iff_forall_not_mem.2 (fun tc htc => ?_)
      have hin : tc ∈ c.fragments.map (ToolCallDelta.number n) := by
        rw [← hout]
        exact List.mem_append_right _ htc
      obtain ⟨x, hx, rfl⟩ := List.mem_map.1 (admitMarked_subset htc)
      exact absurd (deltas_rest (List.mem_cons_of_mem _ hin)) (h.ma_lt hx).ne'
    rw [hlater, List.append_nil] at hout
    have hall : m.map Prod.snd = c.fragments.map (ToolCallDelta.number n) := by
      have hsub := admitMarked_sublist (a := c.anchor.number n) (m := m) false
      rw [hout] at hsub
      refine (hsub.eq_of_length_le ?_).symm
      have hlen := congrArg List.length hmarked
      have hle := List.length_filter_le (keeps req calls)
        (c.anchor.number n :: c.fragments.map (ToolCallDelta.number n))
      simp only [List.length_cons] at hlen hle
      omega
    have hfrag : ∀ tc ∈ m, continues (c.anchor.number n) tc.2 ∨ free tc.2 := fun tc htc =>
      fragment_continues (hall ▸ List.mem_map_of_mem (f := Prod.snd) htc)
    have hjoined := (admitMarked_all hfrag).1.1 (hout.trans hall.symm)
    obtain rfl : false = f := by simpa [(admitMarked_all hfrag).2 hjoined] using hstate
    obtain ⟨hresumed, hparted⟩ := (admitMarked_none false).1 hlater
    exact {
      first := h.first_iff.1 hnil
      whole := h.whole_iff.1 (by rw [hown, List.map_cons, hall]; rfl)
      alone := fun hnot => by simp [hcap] at hnot
      resumed := fun _ => (h.resumed_iff _).1 hresumed
      joined := fun _ => h.joined_iff.1 (by
        rw [hown]
        intro tc htc
        rcases List.mem_cons.1 htc with rfl | htc
        · simp [anchor_not_free]
        · exact hjoined tc htc)
      parted := fun _ tc htc => hparted rfl tc (h.find_later hnil ▸ htc) }
  · intro hs
    have hnil := h.first_iff.2 hs.first
    have hwhole := h.whole_iff.2 hs.whole
    have hparted := hs.parted hcap
    rw [h.find_later hnil] at hparted
    rw [h.marks, hnil, List.nil_append]
    obtain ⟨⟨r, a⟩, m, rfl⟩ : ∃ tc m, own = tc :: m := by
      cases own with
      | nil => simp [deltas] at hwhole
      | cons tc m => exact ⟨tc, m, rfl⟩
    have hjoined := h.joined_iff.2 (hs.joined hcap)
    rw [deltas, List.map_cons, List.map_cons, List.cons.injEq] at hwhole
    obtain ⟨rfl, hall⟩ := hwhole
    have hfrag : ∀ tc ∈ m, continues (c.anchor.number n) tc.2 ∨ free tc.2 := fun tc htc =>
      fragment_continues (hall ▸ List.mem_map_of_mem (f := Prod.snd) htc)
    have hpass : ∀ tc ∈ m, free tc.2 → tc.1 = false := fun tc htc => hjoined tc (by simp [htc])
    have hlater : (feed admitMarked (some (c.anchor.number n, false)) ma).2 = [] :=
      (admitMarked_none false).2 ⟨(h.resumed_iff _).2 (hs.resumed hcap), fun _ => hparted⟩
    rw [List.cons_append, feed_admitted, feed_append, (admitMarked_all hfrag).2 hpass,
      (admitMarked_all hfrag).1.2 hpass, hlater, List.append_nil, hall]
    rfl

end Around

/-- Without the cap a call is left whole and alone when the tool-choice filter says so. -/
theorem uncapped_deltas {n : Nat} {c : Call} (hget : calls[n]? = some c)
    (hcap : req.parallelToolCallsAllowed = true) :
    (stream 0 calls).filter (keeps req calls) = c.deltas n ↔ Singled req calls batches n c := by
  rw [← stream_filter hget]
  constructor
  · intro hout
    have hk : ∀ tc ∈ stream 0 calls, keeps req calls tc = decide (tc.rest = n) := by
      intro tc htc
      have hmem : tc ∈ (stream 0 calls).filter (keeps req calls) ↔
          tc ∈ (stream 0 calls).filter (fun tc => tc.rest = n) := by rw [hout]
      rw [Bool.eq_iff_iff]
      simpa [htc] using hmem
    have hoff : ¬ req.parallelToolCallsAllowed = false := by simp [hcap]
    exact {
      first := fun tc htc hlt => by simp [hk tc htc, hlt.ne]
      whole := fun tc htc hrest => by simp [hk tc htc, hrest]
      alone := fun _ tc htc hlt => by simp [hk tc htc, hlt.ne']
      resumed := fun h => absurd h hoff
      joined := fun h => absurd h hoff
      parted := fun h => absurd h hoff }
  · intro hs
    refine List.filter_congr (fun tc htc => ?_)
    rcases Nat.lt_trichotomy tc.rest n with hlt | heq | hlt
    · simp [hs.first tc htc hlt, hlt.ne]
    · simp [hs.whole tc htc heq, heq]
    · simp [hs.alone hcap tc htc hlt, hlt.ne']

theorem respects_iff_single {out : List (ToolCallDelta Nat)}
    (hmode : req.forcedToolChoiceName ≠ none ∨ req.parallelToolCallsAllowed = false) :
    Respects req calls out ↔ out = [] ∨ ∃ (n : Nat) (c : Call), calls[n]? = some c ∧
      out = c.deltas n ∧
      ∀ name, req.forcedToolChoiceName = some name → c.anchor.anchorName = some name := by
  constructor
  · rintro ⟨admitted, rfl, hname, hone⟩
    by_cases hany : ∃ (n : Nat) (c : Call), calls[n]? = some c ∧ admitted n = true
    · obtain ⟨n, c, hget, hn⟩ := hany
      refine .inr ⟨n, c, hget, ?_, fun name hf => hname name hf n c hget hn⟩
      rw [← stream_filter hget]
      refine List.filter_congr (fun tc htc => ?_)
      obtain ⟨d, hd, -⟩ := mem_stream htc
      by_cases hrest : tc.rest = n
      · simp [hrest, hn]
      · have hnot : ¬ admitted tc.rest = true := fun ha =>
          hrest (hone hmode tc.rest n (List.getElem?_eq_some_iff.1 hd).1
            (List.getElem?_eq_some_iff.1 hget).1 ha hn)
        simpa [hrest] using hnot
    · refine .inl (List.filter_eq_nil_iff.2 (fun tc htc ha => hany ?_))
      obtain ⟨d, hd, -⟩ := mem_stream htc
      exact ⟨tc.rest, d, hd, ha⟩
  · rintro (rfl | ⟨n, c, hget, rfl, hname⟩)
    · exact ⟨fun _ => false, by simp, by simp, by simp⟩
    · refine ⟨fun i => i = n, ?_, ?_, ?_⟩
      · exact (stream_filter hget).symm
      · intro name hf i d hd hi
        obtain rfl : i = n := by simpa using hi
        obtain rfl : d = c := by simpa [hget, eq_comm] using hd
        exact hname name hf
      · intro _ i j _ _ hi hj
        simp only [decide_eq_true_eq] at hi hj
        omega

/-- With a forced function an anchor that passes names it. -/
theorem keeps_name {n : Nat} {c : Call} {name : Text} (h : keeps req calls (c.anchor.number n))
    (hf : req.forcedToolChoiceName = some name) : c.anchor.anchorName = some name := by
  have hanchor : (c.anchor.number n).anchorName = c.anchor.anchorName := rfl
  unfold keeps passes at h
  rw [hanchor] at h
  split at h
  · rename_i hnone
    exact absurd (by simp [hnone]) c.named
  · have htaken : taken req (c.anchor.number n) = true := by
      simp only [Bool.and_eq_true] at h
      exact h.1
    simpa [taken, hf, hanchor] using (of_decide_eq_true htaken).2.1

/-- The deltas that survive the tool-choice filter and the cap are all deltas of the admitted calls
exactly when the tool-choice filter passes nothing at all or singles a call out. -/
theorem gate_respects_iff (req : Request) (calls : List Call)
    (batches : List (List (ToolCallDelta Nat))) (hb : batches.flatten = stream 0 calls)
    (hmode : req.forcedToolChoiceName ≠ none ∨ req.parallelToolCallsAllowed = false) :
    Respects req calls (feed (gate req) {} batches).2 ↔
      (∀ tc ∈ stream 0 calls, keeps req calls tc = false) ∨
        ∃ (n : Nat) (c : Call), calls[n]? = some c ∧ Singled req calls batches n c := by
  have hl : Latched req {} ([] : List (ToolCallDelta Nat)) := fun _ => rfl
  have hnothing : (stream 0 calls).filter (keeps req calls) = [] ↔
      ∀ tc ∈ stream 0 calls, keeps req calls tc = false := by
    simp [List.filter_eq_nil_iff]
  have hwhole : ∀ (n : Nat) (c : Call), calls[n]? = some c → Singled req calls batches n c →
      ∀ name, req.forcedToolChoiceName = some name → c.anchor.anchorName = some name :=
    fun n c hget hs name hf =>
      keeps_name (hs.whole _ (deltas_mem hget (anchor_mem n c)) rfl) hf
  rw [respects_iff_single hmode, ← hnothing]
  cases hcap : req.parallelToolCallsAllowed with
  | true =>
    rw [gates_filter hcap hl, hb, List.nil_append]
    refine or_congr_right (exists_congr fun n => exists_congr fun c => ?_)
    refine and_congr_right (fun hget => ?_)
    rw [← uncapped_deltas hget hcap]
    exact ⟨fun h => h.1, fun h => ⟨h, hwhole n c hget ((uncapped_deltas hget hcap).1 h)⟩⟩
  | false =>
    have hrun : (feed (gate req) {} batches).2 =
        (feed admitMarked none (marks (keeps req calls) false batches)).2 := by
      have hs : Stands {} (none : Option (ToolCallDelta Nat × Bool)) := ⟨rfl, rfl, rfl, rfl⟩
      rw [gates_door hcap hs hl, hb, List.nil_append, ← feed_door, raise_false]
      rfl
    rw [hrun]
    refine or_congr ?_ (exists_congr fun n => exists_congr fun c => and_congr_right fun hget => ?_)
    · rw [← hb, ← marks_snd (keeps req calls) false batches, List.map_eq_nil_iff]
      cases marks (keeps req calls) false batches with
      | nil => simp
      | cons tc m =>
        obtain ⟨r, a⟩ := tc
        rw [feed_admitted]
        simp
    · obtain ⟨before, after, mb, own, ma, h⟩ := @exists_around req _ _ _ _ hb hget
      rw [← h.capped_deltas hcap]
      exact ⟨fun h => h.1, fun hout => ⟨hout, hwhole n c hget ((h.capped_deltas hcap).1 hout)⟩⟩

def lookupThenReport : List Call :=
  [{ anchor := { index := some 0, id := some "a".toList, function := some { name := some "lookup".toList }, rest := () }
     fragments := [{ index := some 0, function := some { arguments := some "{}".toList }, rest := () }]
     named := by decide
     bare := by decide },
   { anchor := { index := some 1, id := some "b".toList, function := some { name := some "report".toList }, rest := () }
     fragments := [{ index := some 1, function := some { arguments := some "{}".toList }, rest := () }]
     named := by decide
     bare := by decide }]

def forcedReport : Request := { toolChoice := some (.function (some "report".toList)) }

theorem gate_respects_iff_report :
    Respects forcedReport lookupThenReport (feed (gate forcedReport) {} [stream 0 lookupThenReport]).2 ↔
      (∀ tc ∈ stream 0 lookupThenReport, keeps forcedReport lookupThenReport tc = false) ∨
        ∃ (n : Nat) (c : Call), lookupThenReport[n]? = some c ∧
          Singled forcedReport lookupThenReport [stream 0 lookupThenReport] n c :=
  gate_respects_iff forcedReport lookupThenReport [stream 0 lookupThenReport] (by simp)
    (.inl (by decide))

/-- The arguments of the rejected call come through. -/
theorem lookup_leaks :
    ¬ Respects forcedReport lookupThenReport
      (feed (gate forcedReport) {} [stream 0 lookupThenReport]).2 := by
  rw [respects_iff_single (.inl (by decide))]
  have hlen : (feed (gate forcedReport) {} [stream 0 lookupThenReport]).2.length = 3 := by
    decide +kernel
  rintro (hout | ⟨n, c, hget, hout, -⟩)
  · rw [hout] at hlen
    cases hlen
  · rw [hout] at hlen
    have htwo : ∀ c ∈ lookupThenReport, c.fragments.length = 1 := by decide
    have := htwo c (List.mem_of_getElem? hget)
    simp [deltas] at hlen
    omega

end FusionMlx.Service.ToolCallGate
