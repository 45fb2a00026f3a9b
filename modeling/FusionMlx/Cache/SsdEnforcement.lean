import FusionMlx.Cache.SsdAccounts
import Mathlib.Algebra.Order.BigOperators.Group.List
import Mathlib.Data.List.TakeWhile

/-!
# What enforcing the size limit takes

A batch looks at the 32 least recently used entries of the incompatible index,
takes the reclaimable ones among them, and then goes on with the index. Blocks
of other live models can hide reclaimable ones behind them.
-/
namespace FusionMlx.PagedSsdCache

open OrderedDict OrderedDict.Dict Runs

variable {η β σ : Type} [DecidableEq η] {s : Store η β σ} {h : η} {i : Nat}

variable {metas : Heap η σ} {ix : Index η}

theorem Books.lruEntries_sum {made : Nat} (hb : Books metas made ix) :
    ix.totalSize = ((ix.lruEntries metas).map (fun i => (metas i).fileSize)).sum := by
  have hperm := (List.perm_insertionSort (fun i j => (metas i).lastAccess ≤ (metas j).lastAccess)
    (ix.blocks.entries.map Prod.snd)).map (fun i => (metas i).fileSize)
  rw [Index.lruEntries, hperm.sum_nat, List.map_map, hb.exact]
  rfl

theorem Books.entries_nodup {made : Nat} (hb : Books metas made ix) :
    (ix.blocks.entries.map Prod.snd).Nodup := by
  refine (List.Nodup.of_map Prod.fst ix.blocks.nodup).map_on (fun e he e' he' heq => ?_)
  have hname := (hb.named e.1 e.2 ((get?_eq_some_iff ..).2 he)).1
  have hname' := (hb.named e'.1 e'.2 ((get?_eq_some_iff ..).2 he')).1
  exact Prod.ext (hname.symm.trans (heq ▸ hname')) heq

theorem Books.lruEntries_nodup {made : Nat} (hb : Books metas made ix) :
    (ix.lruEntries metas).Nodup :=
  (List.perm_insertionSort _ _).nodup_iff.2 hb.entries_nodup

/-- An entry that is taken out leaves the others in their order. -/
theorem Books.lruEntries_remove {made : Nat} (hb : Books metas made ix)
    (hi : ix.blocks.get? h = some i) :
    (ix.remove metas h).lruEntries metas = (ix.lruEntries metas).filter (· ≠ i) := by
  have htotal : Std.Total (fun i j => (metas i).lastAccess ≤ (metas j).lastAccess) := ⟨fun _ _ => Nat.le_total _ _⟩
  have htrans : IsTrans Nat (fun i j => (metas i).lastAccess ≤ (metas j).lastAccess) := ⟨fun _ _ _ => Nat.le_trans⟩
  rw [Index.lruEntries, Index.lruEntries, StableSort.filter_insertionSort]
  congr 1
  rw [Index.remove, hi]
  dsimp only [Dict.erase]
  rw [List.filter_map]
  congr 1
  refine List.filter_congr (fun e he => ?_)
  have hget := (get?_eq_some_iff ..).2 he
  have hiff : e.1 = h ↔ e.2 = i := by
    constructor
    · rintro rfl
      rw [hi] at hget
      exact (Option.some.inj hget).symm
    · rintro rfl
      exact (hb.named _ _ hget).1.symm.trans (hb.named _ _ hi).1
  simp [hiff]

namespace Store

def listed (s : Store η β σ) (own : Bool) : List Nat :=
  if own then s.index.lruEntries s.metas else s.incompatible.lruEntries s.metas

def victim (own : Bool) (i : Nat) : Victim := if own then .compatible i else .incompatible i

def fileSizes (s : Store η β σ) (l : List Nat) : Nat := (l.map (fun i => (s.metas i).fileSize)).sum

theorem Accounted.listed_nodup (ha : s.Accounted) (own : Bool) : (s.listed own).Nodup := by
  cases own with
  | true => exact ha.index.lruEntries_nodup
  | false => exact ha.incompatible.lruEntries_nodup

theorem Accounted.tracked (ha : s.Accounted) :
    s.trackedSsdSize = s.fileSizes (s.listed true) + s.fileSizes (s.listed false) := by
  rw [trackedSsdSize, ha.index.lruEntries_sum, ha.incompatible.lruEntries_sum]
  rfl

/-- One eviction: the victim leaves its list, and the other list is as it was. -/
theorem Accounted.evict_listed (ha : s.Accounted) {own : Bool} (hi : i ∈ s.listed own) :
    (s.evict (victim own i)).Accounted ∧ (s.evict (victim own i)).metas = s.metas ∧
      (s.evict (victim own i)).listed own = (s.listed own).filter (· ≠ i) ∧
      (s.evict (victim own i)).listed (!own) = s.listed (!own) := by
  cases own with
  | true =>
    obtain ⟨h, hget⟩ := mem_lruEntries.1 hi
    have hname := (ha.index.named h i hget).1
    refine ⟨ha.evict (ha.apart_compatible hi), rfl, ?_, rfl⟩
    have hremove := ha.index.lruEntries_remove hget
    rw [← hname] at hremove
    exact hremove
  | false =>
    obtain ⟨h, hget⟩ := mem_lruEntries.1 hi
    have hname := (ha.incompatible.named h i hget).1
    refine ⟨ha.evict (ha.apart_incompatible hi), rfl, ?_, rfl⟩
    have hremove := ha.incompatible.lruEntries_remove hget
    rw [← hname] at hremove
    exact hremove

theorem sum_filter_ne {l : List Nat} {f : Nat → Nat} (hnodup : l.Nodup) (hi : i ∈ l) :
    (l.map f).sum = f i + ((l.filter (· ≠ i)).map f).sum := by
  have herase : l.filter (· ≠ i) = l.erase i := by
    rw [hnodup.erase_eq_filter]
    exact List.filter_congr (fun j _ => by simp [bne, beq_eq_decide])
  have hperm : l.Perm (i :: l.filter (· ≠ i)) := by
    rw [herase]
    exact List.perm_cons_erase hi
  rw [(hperm.map f).sum_nat, List.map_cons, List.sum_cons]

/-- A run of the inner loop over victims of one index takes the first of them, all of them unless the
size comes within the limit. -/
theorem batchLoop_spec (ha : s.Accounted) (own : Bool) (effective : Nat) {ids : List Nat} (hnodup : ids.Nodup)
    (hids : ∀ i ∈ ids, i ∈ s.listed own) :
    ∃ m ≤ ids.length, (batchLoop effective (ids.map (victim own)) s).1 = (ids.take m).map (victim own) ∧
      (batchLoop effective (ids.map (victim own)) s).2.Accounted ∧
      (batchLoop effective (ids.map (victim own)) s).2.metas = s.metas ∧
      (batchLoop effective (ids.map (victim own)) s).2.listed own = (s.listed own).filter (· ∉ ids.take m) ∧
      (batchLoop effective (ids.map (victim own)) s).2.listed (!own) = s.listed (!own) ∧
      (batchLoop effective (ids.map (victim own)) s).2.trackedSsdSize + s.fileSizes (ids.take m) = s.trackedSsdSize ∧
      (m = ids.length ∨ (batchLoop effective (ids.map (victim own)) s).2.trackedSsdSize ≤ effective) ∧
      (s.trackedSsdSize ≤ effective → m = 0) := by
  induction ids generalizing s with
  | nil => exact ⟨0, le_rfl, rfl, ha, rfl, by simp [batchLoop], rfl, rfl, .inl rfl, fun _ => rfl⟩
  | cons i ids ih =>
    rw [List.map_cons, batchLoop]
    split
    · next hover =>
      obtain ⟨hnot, hnodup⟩ := List.nodup_cons.1 hnodup
      have hi := hids i List.mem_cons_self
      obtain ⟨hkeep, hmetas, hlist, hother⟩ := ha.evict_listed hi
      have hrest : ∀ j ∈ ids, j ∈ (s.evict (victim own i)).listed own := by
        intro j hj
        rw [hlist, List.mem_filter, decide_eq_true_eq]
        exact ⟨hids j (List.mem_cons_of_mem i hj), fun hji => hnot (hji ▸ hj)⟩
      have hsize : (s.evict (victim own i)).trackedSsdSize + (s.metas i).fileSize = s.trackedSsdSize := by
        have hsum := sum_filter_ne (f := fun j => (s.metas j).fileSize) (ha.listed_nodup own) hi
        have hafter := hkeep.tracked
        have hbefore := ha.tracked
        cases own <;> simp only [fileSizes, hmetas, hlist, Bool.not_true, Bool.not_false] at * <;>
          rw [hother] at hafter <;> omega
      obtain ⟨m, hm, hvictims, hacc, hmetas', hlist', hother', hsize', hend, -⟩ := ih hkeep hnodup hrest
      refine ⟨m + 1, Nat.succ_le_succ hm, ?_, hacc, hmetas'.trans hmetas, ?_, hother'.trans hother, ?_, ?_, ?_⟩
      · simp only [hvictims, List.take_succ_cons, List.map_cons]
      · rw [hlist', hlist, List.filter_filter, List.take_succ_cons]
        refine List.filter_congr (fun j _ => ?_)
        simp only [List.mem_cons, not_or, Bool.decide_and, ne_eq]
        exact Bool.and_comm _ _
      · rw [List.take_succ_cons]
        have hrw : s.fileSizes (i :: ids.take m) = (s.metas i).fileSize + s.fileSizes (ids.take m) := by
          simp [fileSizes]
        rw [hrw]
        simp only [fileSizes, hmetas] at hsize' ⊢
        omega
      · exact hend.imp (congrArg Nat.succ) id
      · exact fun hle => absurd hover (not_lt.2 hle)
    · next hunder =>
      exact ⟨0, Nat.zero_le _, rfl, ha, rfl, by simp, rfl, by simp [fileSizes], .inr (not_lt.1 hunder), fun _ => rfl⟩

theorem filter_not_mem_take {l : List Nat} (hnodup : l.Nodup) (n : Nat) : l.filter (· ∉ l.take n) = l.drop n := by
  have happart : ∀ j ∈ l.drop n, j ∉ l.take n := fun j hd ht => (List.disjoint_take_drop hnodup le_rfl) ht hd
  conv_lhs => rw [← List.take_append_drop n l, List.filter_append]
  rw [List.take_append_drop, List.filter_eq_nil_iff.2 (fun j hj => by simpa using hj), List.nil_append,
    List.filter_eq_self.2 (fun j hj => by simpa using happart j hj)]

/-- What a batch takes: some of the reclaimable entries in the window, all of them before it goes on to the
index, and then some of the index's least recently used ones. -/
theorem batch_spec (ha : s.Accounted) (live : List String) (effective : Nat) :
    ∃ m k, (s.batch live effective).1 = ((s.reclaimableIncompatible live 32).take m).map .incompatible ++
        ((s.listed true).take k).map .compatible ∧
      (s.batch live effective).2.Accounted ∧ (s.batch live effective).2.metas = s.metas ∧
      (s.batch live effective).2.listed false =
        (s.listed false).filter (· ∉ (s.reclaimableIncompatible live 32).take m) ∧
      (s.batch live effective).2.listed true = (s.listed true).drop k ∧
      (s.batch live effective).2.trackedSsdSize + (s.fileSizes ((s.reclaimableIncompatible live 32).take m) +
        s.fileSizes ((s.listed true).take k)) = s.trackedSsdSize ∧
      m ≤ (s.reclaimableIncompatible live 32).length ∧ k ≤ 32 - m ∧
      (m = (s.reclaimableIncompatible live 32).length ∧
          (k = min (32 - m) (s.listed true).length ∨ (s.batch live effective).2.trackedSsdSize ≤ effective) ∧
          (0 < k → effective + s.fileSizes ((s.reclaimableIncompatible live 32).take m) < s.trackedSsdSize) ∨
        k = 0 ∧ (s.batch live effective).2.trackedSsdSize ≤ effective) := by
  have hsub : ∀ i ∈ s.reclaimableIncompatible live 32, i ∈ s.listed false :=
    fun i hi => mem_reclaimableIncompatible hi
  have hwindow : (s.reclaimableIncompatible live 32).Nodup :=
    ((ha.listed_nodup false).sublist (List.take_sublist _ _)).filter _
  obtain ⟨m, hm, hvictims, hacc, hmetas, hlist, hother, hsize, hend, -⟩ :=
    batchLoop_spec ha false effective hwindow hsub
  have hbatch : s.batch live effective =
      let r := batchLoop effective ((s.reclaimableIncompatible live 32).map (victim false)) s
      let q := batchLoop effective (((r.2.listed true).take (32 - r.1.length)).map (victim true)) r.2
      (r.1 ++ q.1, q.2) := rfl
  rw [hbatch]
  generalize batchLoop effective ((s.reclaimableIncompatible live 32).map (victim false)) s = r at *
  have hlength : r.1.length = m := by
    rw [hvictims, List.length_map, List.length_take_of_le hm]
  change r.2.listed true = s.listed true at hother
  obtain ⟨k, hk, hvictims', hacc', hmetas', hlist', hother', hsize', hend', hnone⟩ :=
    batchLoop_spec hacc true effective
      ((hacc.listed_nodup true).sublist (List.take_sublist (32 - r.1.length) _)) (fun _ hi => List.mem_of_mem_take hi)
  rw [hother, hlength] at hk hvictims' hacc' hmetas' hlist' hother' hsize' hend'
  dsimp only
  rw [hother, hlength]
  generalize batchLoop effective (((s.listed true).take (32 - m)).map (victim true)) r.2 = q at *
  have htake : ((s.listed true).take (32 - m)).take k = (s.listed true).take k := by
    rw [List.take_take, min_eq_left (hk.trans (List.length_take_le _ _))]
  rw [htake] at hvictims' hlist' hsize'
  have hsizes : r.2.fileSizes ((s.listed true).take k) = s.fileSizes ((s.listed true).take k) := by
    simp only [fileSizes, hmetas]
  rw [hsizes] at hsize'
  refine ⟨m, k, by rw [hvictims, hvictims']; rfl, hacc', hmetas'.trans hmetas, hother'.trans hlist, ?_, by omega, hm,
    hk.trans (List.length_take_le _ _), ?_⟩
  · rw [hlist', filter_not_mem_take (ha.listed_nodup true)]
  · by_cases hwithin : r.2.trackedSsdSize ≤ effective
    · have hk0 := hnone hwithin
      subst hk0
      have hzero : s.fileSizes ((s.listed true).take 0) = 0 := rfl
      exact .inr ⟨rfl, by omega⟩
    · refine .inl ⟨hend.resolve_right hwithin, hend'.imp (fun he => ?_) id, fun _ => by omega⟩
      rw [he, List.length_take]

def windowEnd (free : Nat → Bool) (l : List Nat) : Nat := 32 * ((l.takeWhile free).length / 32 + 1)

omit [DecidableEq η] in
theorem windowEnd_cases (free : Nat → Bool) (l : List Nat) :
    windowEnd free l = 32 ∨ (32 ≤ l.length ∧ (∀ i ∈ l.take 32, free i = true) ∧
      windowEnd free l = windowEnd free (l.drop 32) + 32) := by
  by_cases hlt : (l.takeWhile free).length < 32
  · left
    rw [windowEnd, Nat.div_eq_of_lt hlt]
  · right
    have hsplit : l = l.takeWhile free ++ l.dropWhile free := List.takeWhile_append_dropWhile.symm
    have hle : 32 ≤ (l.takeWhile free).length := not_lt.1 hlt
    have htake : l.take 32 = (l.takeWhile free).take 32 := by
      conv_lhs => rw [hsplit, List.take_append_of_le_length hle]
    have hdrop : (l.drop 32).takeWhile free = (l.takeWhile free).drop 32 := by
      have hbehind : (l.dropWhile free).takeWhile free = [] := by
        cases hd : l.dropWhile free with
        | nil => rfl
        | cons x rest =>
          have hx := List.head_dropWhile_not free (l := l) (by rw [hd]; simp)
          simp only [hd, List.head_cons] at hx
          rw [List.takeWhile_cons_of_neg (by simp [hx])]
      conv_lhs => rw [hsplit, List.drop_append_of_le_length hle]
      rw [List.takeWhile_append_of_pos (fun i hi => List.mem_takeWhile_imp (List.mem_of_mem_drop hi)), hbehind,
        List.append_nil]
    refine ⟨hle.trans (List.takeWhile_prefix free).length_le, fun i hi => ?_, ?_⟩
    · rw [htake] at hi
      exact List.mem_takeWhile_imp (List.mem_of_mem_take hi)
    · rw [windowEnd, windowEnd, hdrop, List.length_drop]
      omega

/-- The index has nothing, or no reclaimable entry stands behind the first window with an entry of a live
model, or the reclaimable ones up to there are enough. -/
def Preferring (s : Store η β σ) (live : List String) (effective : Nat) : Prop :=
  s.listed true = [] ∨
  (∀ i ∈ (s.listed false).drop (windowEnd (s.reclaimable live) (s.listed false)), s.reclaimable live i = false) ∨
  s.trackedSsdSize ≤ effective + s.fileSizes
    (((s.listed false).take (windowEnd (s.reclaimable live) (s.listed false))).filter (s.reclaimable live))

variable {live : List String} {effective : Nat}

theorem Preferring.batch (hp : s.Preferring live effective)
    (ha : s.Accounted) {pre post : List Victim} (he : (s.batch live effective).1 = pre ++ .compatible i :: post)
    {j : Nat} (hj : j ∈ s.listed false) (hfree : s.reclaimable live j = true) : .incompatible j ∈ pre := by
  obtain ⟨m, k, hvictims, -, -, -, -, -, -, hk, hcase⟩ := batch_spec ha live effective
  have hmem : Victim.compatible i ∈ ((s.listed true).take k).map Victim.compatible := by
    have hall : Victim.compatible i ∈ (s.batch live effective).1 := he ▸ by simp
    rw [hvictims, List.mem_append] at hall
    refine hall.resolve_left (fun hin => ?_)
    obtain ⟨_, -, heq⟩ := List.mem_map.1 hin
    cases heq
  obtain ⟨i', hi', -⟩ := List.mem_map.1 hmem
  have hpos : 0 < k := by
    by_contra hzero
    rw [Nat.eq_zero_of_not_pos hzero, List.take_zero] at hi'
    cases hi'
  obtain ⟨hm, -, hsize⟩ := hcase.resolve_right (fun hz => by omega)
  have hwindow : s.reclaimableIncompatible live 32 = ((s.listed false).take 32).filter (s.reclaimable live) := rfl
  have hend : windowEnd (s.reclaimable live) (s.listed false) = 32 := by
    refine (windowEnd_cases (s.reclaimable live) (s.listed false)).resolve_right (fun hfull => ?_)
    have hlen : (s.reclaimableIncompatible live 32).length = 32 := by
      rw [hwindow, List.filter_eq_self.2 hfull.2.1, List.length_take_of_le hfull.1]
    omega
  have htaken : j ∈ s.reclaimableIncompatible live 32 := by
    rw [Preferring, hend, ← hwindow] at hp
    rw [hm, List.take_length] at hsize
    rcases hp with hempty | hbehind | henough
    · rw [hempty, List.take_nil] at hi'
      cases hi'
    · rw [hwindow, List.mem_filter]
      refine ⟨?_, hfree⟩
      rw [← List.take_append_drop 32 (s.listed false), List.mem_append] at hj
      refine hj.resolve_right (fun hdrop => ?_)
      rw [hbehind j hdrop] at hfree
      cases hfree
    · exact absurd henough (not_le.2 (hsize hpos))
  rw [he, hm, List.take_length, List.append_eq_append_iff] at hvictims
  have hj' : Victim.incompatible j ∈ (s.reclaimableIncompatible live 32).map Victim.incompatible :=
    List.mem_map_of_mem htaken
  rcases hvictims with ⟨a, ha', hrest⟩ | ⟨c, hc, -⟩
  · cases a with
    | nil =>
      rw [List.append_nil] at ha'
      exact ha' ▸ hj'
    | cons x a =>
      have hx : Victim.compatible i ∈ (s.reclaimableIncompatible live 32).map Victim.incompatible := by
        rw [ha', (List.cons.inj hrest).1]
        simp
      obtain ⟨_, -, heq⟩ := List.mem_map.1 hx
      cases heq
  · rw [hc]
    exact List.mem_append_left _ hj'

/-- A batch that leaves the size over the limit took all reclaimable entries of its window and as many of the
index as it may. -/
theorem batch_over (ha : s.Accounted)
    (hover : effective < (s.batch live effective).2.trackedSsdSize) :
    ∃ k, k = min (32 - (s.reclaimableIncompatible live 32).length) (s.listed true).length ∧
      (s.batch live effective).2.listed false = (s.listed false).filter (· ∉ s.reclaimableIncompatible live 32) ∧
      (s.batch live effective).2.listed true = (s.listed true).drop k ∧
      (s.batch live effective).2.trackedSsdSize + (s.fileSizes (s.reclaimableIncompatible live 32) +
        s.fileSizes ((s.listed true).take k)) = s.trackedSsdSize ∧
      (s.batch live effective).1 = (s.reclaimableIncompatible live 32).map .incompatible ++
        ((s.listed true).take k).map .compatible := by
  obtain ⟨m, k, hvictims, -, -, hothers, hown, hsize, -, -, hcase⟩ := batch_spec ha live effective
  obtain ⟨hm, hk, -⟩ := hcase.resolve_right (fun hz => absurd hover (not_lt.2 hz.2))
  have hk' := hk.resolve_right (not_le.2 hover)
  rw [hm] at hvictims hothers hsize hk'
  rw [List.take_length] at hvictims hothers hsize
  exact ⟨k, hk', hothers, hown, hsize, hvictims⟩

theorem batch_metas (s : Store η β σ) (live : List String) (effective : Nat) :
    (s.batch live effective).2.metas = s.metas := (batch_evicts live effective s).metas

theorem reclaimable_batch (s : Store η β σ) (live : List String) (effective : Nat) :
    (s.batch live effective).2.reclaimable live = s.reclaimable live := by
  funext j
  rw [reclaimable, batch_metas, reclaimable]

theorem Preferring.after (hp : s.Preferring live effective) (ha : s.Accounted)
    (hover : effective < (s.batch live effective).2.trackedSsdSize) :
    (s.batch live effective).2.Preferring live effective := by
  obtain ⟨k, hk, hothers, hown, hsize, -⟩ := batch_over ha hover
  have hwindow : s.reclaimableIncompatible live 32 = ((s.listed false).take 32).filter (s.reclaimable live) := rfl
  have hsizes : ∀ l, (s.batch live effective).2.fileSizes l = s.fileSizes l := fun l => by
    simp only [fileSizes, batch_metas]
  rw [Preferring, reclaimable_batch, hothers, hown]
  rcases windowEnd_cases (s.reclaimable live) (s.listed false) with hend | ⟨hlen, hfull, hend⟩
  · rw [Preferring, hend, ← hwindow] at hp
    rcases hp with hempty | hbehind | henough
    · left
      rw [hempty, List.drop_nil]
    · refine .inr (.inl (fun j hj => ?_))
      obtain ⟨hj, hnot⟩ := List.mem_filter.1 (List.mem_of_mem_drop hj)
      rw [decide_eq_true_eq] at hnot
      rw [← List.take_append_drop 32 (s.listed false), List.mem_append] at hj
      rcases hj with hj | hj
      · rw [hwindow, List.mem_filter, not_and, Bool.not_eq_true] at hnot
        exact hnot hj
      · exact hbehind j hj
    · omega
  · have htake : s.reclaimableIncompatible live 32 = (s.listed false).take 32 := by
      rw [hwindow, List.filter_eq_self.2 hfull]
    have hk0 : k = 0 := by
      rw [hk, htake, List.length_take_of_le hlen]
      simp
    have hdrop : (s.listed false).filter (· ∉ s.reclaimableIncompatible live 32) = (s.listed false).drop 32 := by
      rw [htake, filter_not_mem_take (ha.listed_nodup false)]
    rw [hdrop, hk0, List.drop_zero, hsizes]
    rw [Preferring, hend] at hp
    rcases hp with hempty | hbehind | henough
    · exact .inl hempty
    · refine .inr (.inl (fun j hj => hbehind j ?_))
      rwa [List.drop_drop, Nat.add_comm] at hj
    · refine .inr (.inr ?_)
      rw [Nat.add_comm _ 32, List.take_add, List.filter_append, List.filter_eq_self.2 hfull] at henough
      rw [htake, hk0, List.take_zero] at hsize
      simp only [fileSizes, List.map_append, List.sum_append, List.map_nil, List.sum_nil] at henough hsize ⊢
      omega

/-- No block of the index is taken while a reclaimable incompatible one is left. -/
theorem enforceLoop_prefers (ha : s.Accounted)
    (hp : s.Preferring live effective) (n : Nat) {pre post : List Victim}
    (he : (enforceLoop live effective n s).1 = pre ++ .compatible i :: post) {j : Nat} (hj : j ∈ s.listed false)
    (hfree : s.reclaimable live j = true) : .incompatible j ∈ pre := by
  induction n generalizing s pre with
  | zero => simp [enforceLoop] at he
  | succ n ih =>
    rw [enforceLoop] at he
    dsimp only at he
    split at he
    · simp at he
    · split at he
      · exact hp.batch ha he hj hfree
      · next hover =>
        have hover := not_le.1 hover
        obtain ⟨k, -, hothers, -, -, hvictims⟩ := batch_over ha hover
        have hlater : ∀ a, pre = (s.batch live effective).1 ++ a →
            (enforceLoop live effective n (s.batch live effective).2).1 = a ++ .compatible i :: post →
              Victim.incompatible j ∈ pre := by
          rintro a rfl hrest
          by_cases htaken : j ∈ s.reclaimableIncompatible live 32
          · rw [hvictims, List.append_assoc]
            exact List.mem_append_left _ (List.mem_map_of_mem htaken)
          · refine List.mem_append_right _ (ih (ha.batch live effective) (hp.after ha hover) hrest ?_ ?_)
            · rw [hothers, List.mem_filter, decide_eq_true_eq]
              exact ⟨hj, htaken⟩
            · rw [reclaimable_batch]
              exact hfree
        rcases List.append_eq_append_iff.1 he with ⟨a, ha', hrest⟩ | ⟨c, hc, hrest⟩
        · exact hlater a ha' hrest
        · cases c with
          | nil =>
            rw [List.append_nil] at hc
            exact hlater [] (by rw [hc, List.append_nil]) hrest.symm
          | cons x c =>
            obtain ⟨rfl, -⟩ := List.cons.inj hrest
            exact hp.batch ha hc hj hfree

def ahead (free : Nat → Bool) (l : List Nat) (i : Nat) : Nat :=
  ((l.takeWhile (· ≠ i)).filter (fun j => ! free j)).length

omit [DecidableEq η] in
theorem ahead_filter {free p : Nat → Bool} (hp : ∀ j, free j = false → p j = true) (hi : p i = true) (l : List Nat) :
    ahead free (l.filter p) i = ahead free l i := by
  induction l with
  | nil => rfl
  | cons x l ih =>
    rw [ahead, ahead] at ih ⊢
    by_cases hx : x = i
    · subst hx
      rw [List.filter_cons_of_pos hi, List.takeWhile_cons_of_neg (by simp), List.takeWhile_cons_of_neg (by simp)]
    · rw [List.takeWhile_cons_of_pos (by simpa using hx)]
      by_cases hpx : p x = true
      · rw [List.filter_cons_of_pos hpx, List.takeWhile_cons_of_pos (by simpa using hx)]
        by_cases hf : free x = true
        · rw [List.filter_cons_of_neg (by simp [hf]), List.filter_cons_of_neg (by simp [hf])]
          exact ih
        · rw [List.filter_cons_of_pos (by simp [hf]), List.filter_cons_of_pos (by simp [hf]), List.length_cons,
            List.length_cons, ih]
      · have hf : free x = true := by
          by_contra hf
          exact hpx (hp x (Bool.not_eq_true _ ▸ hf))
        rw [List.filter_cons_of_neg hpx, List.filter_cons_of_neg (by simp [hf])]
        exact ih

def hidden (s : Store η β σ) (live : List String) (i : Nat) : Bool :=
  ! s.reclaimable live i || 32 ≤ ahead (s.reclaimable live) (s.listed false) i

def evictable (s : Store η β σ) (live : List String) : List Nat :=
  s.listed true ++ (s.listed false).filter (s.reclaimable live)

/-- No reclaimable entry is hidden, or the hidden entries fit; and `n` batches are enough: whichever blocks
they take, these cover the excess or are all that may go. -/
structure Reaching (s : Store η β σ) (live : List String) (effective n : Nat) : Prop where
  fits : (∀ i ∈ s.listed false, s.reclaimable live i = true → s.hidden live i = false) ∨
    s.fileSizes ((s.listed false).filter (s.hidden live)) ≤ effective
  rounds : ∀ l ⊆ s.evictable live, l.Nodup →
    n * (32 - min 31 ((s.listed false).filter (fun i => ! s.reclaimable live i)).length) ≤ l.length →
      s.trackedSsdSize ≤ effective + s.fileSizes l ∨ s.evictable live ⊆ l

/-- The size is within the limit, or only blocks of live models are left. -/
def Enforced (s : Store η β σ) (live : List String) (effective : Nat) : Prop :=
  s.trackedSsdSize ≤ effective ∨ (s.listed true = [] ∧ ∀ i ∈ s.listed false, s.reclaimable live i = false)

theorem hidden_batch (ha : s.Accounted)
    (hover : effective < (s.batch live effective).2.trackedSsdSize)
    (hi : i ∈ (s.batch live effective).2.listed false) : (s.batch live effective).2.hidden live i = s.hidden live i := by
  obtain ⟨k, -, hothers, -, -, -⟩ := batch_over ha hover
  rw [hothers, List.mem_filter] at hi
  rw [hidden, hidden, reclaimable_batch, hothers, ahead_filter (fun j hj => ?_) hi.2]
  rw [decide_eq_true_eq, reclaimableIncompatible, List.mem_filter, hj]
  simp

omit [DecidableEq η] in
theorem fileSizes_sublist (s : Store η β σ) {l l' : List Nat} (h : l.Sublist l') : s.fileSizes l ≤ s.fileSizes l' :=
  (h.map _).sum_le_sum (fun _ _ => Nat.zero_le _)

omit [DecidableEq η] in
/-- The reclaimable entries of the window are the first of all reclaimable ones. -/
theorem reclaimableIncompatible_eq_take (s : Store η β σ) (live : List String) :
    s.reclaimableIncompatible live 32 =
      ((s.listed false).filter (s.reclaimable live)).take (s.reclaimableIncompatible live 32).length := by
  have hwindow : s.reclaimableIncompatible live 32 = ((s.listed false).take 32).filter (s.reclaimable live) := rfl
  rw [hwindow]
  conv_rhs => rw [← List.take_append_drop 32 (s.listed false), List.filter_append]
  rw [List.take_append_drop, List.take_left]

omit [DecidableEq η] in
/-- The window has 32 entries, or all there are; those of live models are the only ones it passes over. -/
theorem reclaimableIncompatible_length (s : Store η β σ) (live : List String) :
    min 32 (s.listed false).length ≤ (s.reclaimableIncompatible live 32).length +
      ((s.listed false).filter (fun i => ! s.reclaimable live i)).length := by
  have hsplit := List.length_eq_length_filter_add (l := (s.listed false).take 32) (s.reclaimable live)
  have hpassed := (((List.take_sublist 32 (s.listed false)).filter (fun i => ! s.reclaimable live i))).length_le
  rw [List.length_take] at hsplit
  exact hsplit.trans_le (Nat.add_le_add_left hpassed _)

omit [DecidableEq η] in
theorem fileSizes_append (s : Store η β σ) (l l' : List Nat) :
    s.fileSizes (l ++ l') = s.fileSizes l + s.fileSizes l' := by
  simp [fileSizes]

theorem Accounted.evictable_nodup (ha : s.Accounted) (live : List String) : (s.evictable live).Nodup := by
  refine List.nodup_append.2 ⟨ha.listed_nodup true, (ha.listed_nodup false).filter _, ?_⟩
  rintro i hi j hj rfl
  obtain ⟨h, hget⟩ := mem_lruEntries.1 hi
  obtain ⟨k, hget'⟩ := mem_lruEntries.1 (List.mem_of_mem_filter hj)
  exact ha.not_listed hget k hget'

/-- A batch that leaves the size over the limit takes blocks that may go, so many of them or all. -/
theorem evictable_batch (ha : s.Accounted)
    (hover : effective < (s.batch live effective).2.trackedSsdSize) (hne : (s.batch live effective).1 ≠ []) :
    ∃ taken, (s.evictable live).Perm (taken ++ (s.batch live effective).2.evictable live) ∧
      (s.batch live effective).2.trackedSsdSize + s.fileSizes taken = s.trackedSsdSize ∧
      ((s.batch live effective).2.evictable live = [] ∨
        32 - min 31 ((s.listed false).filter (fun i => ! s.reclaimable live i)).length ≤ taken.length) := by
  obtain ⟨k, hk, hothers, hown, hsize, hvictims⟩ := batch_over ha hover
  have hfirst := s.reclaimableIncompatible_eq_take live
  have hpass := s.reclaimableIncompatible_length live
  have hwindow : s.reclaimableIncompatible live 32 = ((s.listed false).take 32).filter (s.reclaimable live) := rfl
  have hleft : ((s.batch live effective).2.listed false).filter (s.reclaimable live) =
      ((s.listed false).filter (s.reclaimable live)).drop (s.reclaimableIncompatible live 32).length := by
    rw [← filter_not_mem_take ((ha.listed_nodup false).filter (s.reclaimable live)), ← hfirst, hothers,
      List.filter_filter, List.filter_filter]
    exact List.filter_congr (fun j _ => Bool.and_comm _ _)
  have hafter : (s.batch live effective).2.evictable live = (s.listed true).drop k ++
      ((s.listed false).filter (s.reclaimable live)).drop (s.reclaimableIncompatible live 32).length := by
    rw [evictable, reclaimable_batch, hleft, hown]
  refine ⟨s.reclaimableIncompatible live 32 ++ (s.listed true).take k, ?_, ?_, ?_⟩
  · have hown' : ((s.listed true).take k ++ (s.listed true).drop k).Perm (s.listed true) :=
      .of_eq (List.take_append_drop k _)
    have hfree' : (s.reclaimableIncompatible live 32 ++ ((s.listed false).filter (s.reclaimable live)).drop
        (s.reclaimableIncompatible live 32).length).Perm ((s.listed false).filter (s.reclaimable live)) := by
      conv_lhs => arg 1; rw [hfirst]
      exact .of_eq (List.take_append_drop _ _)
    rw [hafter, evictable]
    refine (hown'.symm.append hfree'.symm).trans ?_
    refine List.perm_iff_count.2 (fun i => ?_)
    simp only [List.count_append]
    omega
  · rw [fileSizes_append]
    exact hsize
  · have hshrinks : (s.reclaimableIncompatible live 32).length + k ≠ 0 := by
      intro hzero
      refine hne ?_
      rw [hvictims, List.eq_nil_of_length_eq_zero (by omega : (s.reclaimableIncompatible live 32).length = 0),
        (by omega : k = 0)]
      rfl
    have hshort : (s.listed false).length ≤ 32 → (s.reclaimableIncompatible live 32).length =
        ((s.listed false).filter (s.reclaimable live)).length := fun hle => by
      rw [hwindow, List.take_of_length_le hle]
    have hwithin : (s.reclaimableIncompatible live 32).length ≤ 32 := by
      rw [hwindow]
      exact (List.length_filter_le _ _).trans (List.length_take_le _ _)
    rw [hafter, ← List.length_eq_zero_iff, List.length_append, List.length_append, List.length_drop,
      List.length_drop, List.length_take]
    omega

theorem Reaching.after {n : Nat} (hr : s.Reaching live effective (n + 1))
    (ha : s.Accounted) (hover : effective < (s.batch live effective).2.trackedSsdSize)
    (hne : (s.batch live effective).1 ≠ []) : (s.batch live effective).2.Reaching live effective n := by
  obtain ⟨k, -, hothers, -, -, -⟩ := batch_over ha hover
  have hsizes : ∀ l, (s.batch live effective).2.fileSizes l = s.fileSizes l := fun l => by
    simp only [fileSizes, batch_metas]
  have hsub : ((s.batch live effective).2.listed false).Sublist (s.listed false) := by
    rw [hothers]
    exact List.filter_sublist
  constructor
  · refine hr.fits.imp (fun hno i hi hfree => ?_) (fun hfit => ?_)
    · rw [hidden_batch ha hover hi]
      exact hno i (hsub.subset hi) (by rwa [reclaimable_batch] at hfree)
    · rw [hsizes, List.filter_congr (fun i hi => hidden_batch ha hover hi)]
      exact (fileSizes_sublist s (hsub.filter _)).trans hfit
  · intro l hl hnodup hlength
    obtain ⟨taken, hperm, hsize, hmany⟩ := evictable_batch ha hover hne
    have hforeign : ((s.batch live effective).2.listed false).filter (fun i => ! s.reclaimable live i) =
        (s.listed false).filter (fun i => ! s.reclaimable live i) := by
      rw [hothers, List.filter_filter]
      refine List.filter_congr (fun j _ => ?_)
      by_cases hj : s.reclaimable live j = true
      · simp [hj]
      · simp [reclaimableIncompatible, hj]
    rw [reclaimable_batch, hforeign] at hlength
    rcases hmany with hempty | hmany
    · rw [hempty]
      exact .inr (List.nil_subset l)
    · obtain ⟨hfirst, -, happart⟩ := List.nodup_append.1 (hperm.nodup_iff.1 (ha.evictable_nodup live))
      have hboth := hr.rounds (taken ++ l)
        (fun i hi => hperm.mem_iff.2 (List.mem_append.2 ((List.mem_append.1 hi).imp_right (@hl i))))
        (List.nodup_append.2 ⟨hfirst, hnodup, fun i hi j hj => happart i hi j (hl hj)⟩)
        (by rw [Nat.succ_mul, List.length_append]; omega)
      rw [fileSizes_append] at hboth
      refine hboth.imp (fun henough => ?_) (fun hall i hi => ?_)
      · rw [hsizes]
        omega
      · refine (List.mem_append.1 (hall (hperm.mem_iff.2 (List.mem_append_right _ hi)))).resolve_left (fun hin => ?_)
        exact happart i hin i hi rfl

omit [DecidableEq η] in
/-- A reclaimable entry behind a window of live models' entries is hidden. -/
theorem hidden_of_window (hnone : s.reclaimableIncompatible live 32 = [])
    (hi : i ∈ s.listed false) : s.hidden live i = true := by
  by_cases hfree : s.reclaimable live i = true
  · have hwindow : ((s.listed false).take 32).filter (s.reclaimable live) = [] := hnone
    have hlive : ∀ j ∈ (s.listed false).take 32, s.reclaimable live j = false := fun j hj => by
      simpa using List.filter_eq_nil_iff.1 hwindow j hj
    have hbehind : i ∉ (s.listed false).take 32 := fun hin => by
      rw [hlive i hin] at hfree
      cases hfree
    have hlength : ((s.listed false).take 32).length = 32 := by
      rw [List.length_take]
      refine min_eq_left (not_lt.1 (fun hshort => hbehind ?_))
      rwa [List.take_of_length_le hshort.le]
    have hahead : 32 ≤ ahead (s.reclaimable live) (s.listed false) i := by
      rw [ahead, ← List.take_append_drop 32 (s.listed false),
        List.takeWhile_append_of_pos (fun j hj => by simpa using fun hji : j = i => hbehind (hji ▸ hj)),
        List.filter_append, List.length_append,
        List.filter_eq_self.2 (fun j hj => by simp [hlive j hj]), hlength]
      exact Nat.le_add_right _ _
    simp [hidden, hahead]
  · simp [hidden, hfree]

/-- An empty batch has nothing left to take, or its window is closed and the index is empty. -/
theorem batch_nil (ha : s.Accounted) (hnil : (s.batch live effective).1 = []) :
    s.trackedSsdSize ≤ effective ∨ (s.listed true = [] ∧ s.reclaimableIncompatible live 32 = []) := by
  obtain ⟨m, k, hvictims, -, -, -, -, hsize, hm, -, hcase⟩ := batch_spec ha live effective
  rw [hnil, eq_comm, List.append_eq_nil_iff, List.map_eq_nil_iff, List.map_eq_nil_iff] at hvictims
  have hempty : s.fileSizes [] = 0 := rfl
  simp only [hvictims.1, hvictims.2, hempty, Nat.add_zero] at hsize
  rw [hsize] at hcase
  rcases hcase with ⟨hall, hk, -⟩ | ⟨-, hwithin⟩
  · rw [hall, List.take_length] at hvictims
    refine hk.elim (fun hk => .inr ⟨?_, hvictims.1⟩) .inl
    rw [hvictims.1, List.length_nil] at hall
    have hown := congrArg List.length hvictims.2
    rw [List.length_take, List.length_nil] at hown
    exact List.eq_nil_of_length_eq_zero (by omega)
  · exact .inl hwithin

theorem enforceLoop_reaches (ha : s.Accounted) {n : Nat}
    (hr : s.Reaching live effective n) : (enforceLoop live effective n s).2.Enforced live effective := by
  induction n generalizing s with
  | zero =>
    rw [enforceLoop]
    refine (hr.rounds [] (List.nil_subset _) List.nodup_nil (by simp)).imp (fun hwithin => hwithin) (fun hall => ?_)
    have hnone := List.subset_nil.1 hall
    rw [evictable, List.append_eq_nil_iff] at hnone
    exact ⟨hnone.1, fun i hi => by simpa using List.filter_eq_nil_iff.1 hnone.2 i hi⟩
  | succ n ih =>
    rw [enforceLoop]
    dsimp only
    split
    · next hnil =>
      rcases batch_nil ha (List.isEmpty_iff.1 hnil) with hwithin | ⟨hown, hwindow⟩
      · exact .inl hwithin
      · rcases hr.fits with hno | hfit
        · refine .inr ⟨hown, fun i hi => ?_⟩
          by_contra hfree
          have hseen := hno i hi (by simpa using hfree)
          rw [hidden_of_window hwindow hi] at hseen
          cases hseen
        · left
          rw [List.filter_eq_self.2 (fun i hi => hidden_of_window hwindow hi)] at hfit
          rw [ha.tracked, hown]
          exact (Nat.zero_add _).trans_le hfit
    · next hne =>
      split
      · next hwithin => exact .inl hwithin
      · next hover =>
        refine ih (ha.batch live effective) (hr.after ha (not_le.1 hover) (fun hnil => hne ?_))
        rw [hnil]
        rfl

end Store

variable {S : Settings β σ}

theorem start_accounted (hs : Start S s) : s.Accounted := by
  obtain ⟨s₀, ho, found, live, effective, kept, rfl⟩ := hs
  exact (Store.scan_keeps ho found live effective kept).1

variable [DecidableEq σ]

/-- A file that the scan unlinks is one of no listed block, and so is one that a call of such a run unlinks.
In the run the indexes are apart and their totals are sums, and enforcing the limit reaches it, with the
reclaimable blocks first. -/
theorem indexes_kept (S : Settings β σ) :
    (∀ s₀ : Store η β σ, Opened s₀ → ∀ found live effective kept,
      (s₀.scanDiskIndex S found live effective kept).FilesKept s₀.files) ∧
    ∀ s : Store η β σ, Reached (Start S) (Careful S) (next S) s →
    (∀ h, s.index.contains h = true → s.incompatible.contains h = false) ∧
    s.index.totalSize = s.index.blocks.total (fun i => (s.metas i).fileSize) ∧
    s.incompatible.totalSize = s.incompatible.blocks.total (fun i => (s.metas i).fileSize) ∧
    (∀ op, Careful S s op → (next S s op).FilesKept s.files) ∧
    (∀ live effective, s.Reaching live effective 1000 →
      (next S s (.enforceSizeLimit live effective)).Enforced live effective) ∧
    ∀ live effective, s.Preferring live effective → ∀ pre i post,
      (s.enforceSizeLimit live effective).1 = pre ++ .compatible i :: post →
        ∀ j ∈ s.listed false, s.reclaimable live j = true → .incompatible j ∈ pre := by
  refine ⟨fun s₀ ho found live effective kept => (Store.scan_keeps ho found live effective kept).2, fun s hrun => ?_⟩
  have ha : s.Accounted :=
    hrun.invariant (fun _ => start_accounted) (fun _ _ _ ha hop => (next_accounted ha hop).1)
  exact ⟨ha.apart, ha.index.exact, ha.incompatible.exact, fun _ hop => (next_accounted ha hop).2,
    fun _ _ hr => Store.enforceLoop_reaches ha hr,
    fun _ _ hp _ _ _ he _ hj hfree => Store.enforceLoop_prefers ha hp 1000 he hj hfree⟩

def tenBytes : Settings Nat Nat :=
  { tensorBytes := fun _ => 10
    numLayers := fun _ => 1
    contentSignature := id
    dumps := fun _ _ _ _ => "" }

def emptyDisk : Store Nat Nat Nat :=
  (Store.opened (fun _ => ⟨0, 0, 0, 0, "", 0, "", none, none⟩) (fun _ => none) none).scanDiskIndex tenBytes
    .empty [] 100 []

theorem emptyDisk_start : Start tenBytes emptyDisk :=
  ⟨_, ⟨_, fun _ => none, none, fun _ _ hfile => absurd hfile (by simp), rfl⟩, _, _, _, _, rfl⟩

def saving (now : Nat) (modelName : String) : SaveCall Nat :=
  { data := some 7, modelName, now, queued := true, written := none, live := [], effective := 100 }

def forgetting : List (Op Nat Nat) :=
  [.saveBlock 1 (saving 1 "a"), .saveBlock 2 (saving 2 "b"), .saveBlock 3 (saving 3 "c"), .forgetBlock 1, .forgetBlock 2]

def twoForgotten : Store Nat Nat Nat := runList (next tenBytes) emptyDisk forgetting

theorem twoForgotten_reaching : twoForgotten.Reaching ["a"] 10 1000 := by
  refine ⟨.inl (by decide), fun l hl hnodup hlength => absurd hlength (not_le.2 ?_)⟩
  have hfew : (twoForgotten.evictable ["a"]).length = 2 := by decide
  have hforeign : (twoForgotten.listed false).filter (fun i => ! twoForgotten.reclaimable ["a"] i) = [1] := by decide
  have hle := (List.subperm_of_subset hnodup hl).length_le
  rw [hforeign, List.length_singleton]
  omega

/-- Of two forgotten blocks one is of a live model: the other goes first, and then the block of the index. -/
theorem indexes_kept_two :
    (next tenBytes twoForgotten (.enforceSizeLimit ["a"] 10)).Enforced ["a"] 10 ∧
      (twoForgotten.enforceSizeLimit ["a"] 10).1 = [.incompatible 2, .compatible 3] ∧
      ∀ pre i post, (twoForgotten.enforceSizeLimit ["a"] 10).1 = pre ++ .compatible i :: post → .incompatible 2 ∈ pre := by
  have hcareful : AllOk (Careful tenBytes) (next tenBytes) emptyDisk forgetting :=
    ⟨fun _ _ => ⟨by decide, by decide⟩, fun _ _ => ⟨by decide, by decide⟩, fun _ _ => ⟨by decide, by decide⟩, trivial,
      trivial, trivial⟩
  have hkept := (indexes_kept tenBytes).2 twoForgotten (Reached.runList (.start emptyDisk_start) hcareful)
  have hprefers : twoForgotten.Preferring ["a"] 10 := .inr (.inl (by decide))
  exact ⟨hkept.2.2.2.2.1 ["a"] 10 twoForgotten_reaching, rfl,
    fun pre i post he => hkept.2.2.2.2.2 ["a"] 10 hprefers pre i post he 2 (by decide) (by decide)⟩

/-- A block that is saved again after `forget_block` is in both indexes, and the next eviction unlinks the
file of the block that was just saved. -/
theorem saved_again_listed_twice :
    ¬ ∀ s : Store Nat Nat Nat, Reached (Start tenBytes) (fun _ _ => True) (next tenBytes) s →
      ∀ h, s.index.contains h = true → s.incompatible.contains h = false := by
  intro hall
  have hrun : Reached (Start tenBytes) (fun _ _ => True) (next tenBytes)
      (runList (next tenBytes) emptyDisk [.saveBlock 1 (saving 1 ""), .forgetBlock 1, .saveBlock 1 (saving 2 "")]) :=
    Reached.runList (.start emptyDisk_start) ⟨trivial, trivial, trivial, trivial⟩
  have htwice := hall _ hrun 1 (by decide)
  exact absurd htwice (by decide)

end FusionMlx.PagedSsdCache
