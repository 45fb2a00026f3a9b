import FusionMlx.Kernels.SlabOwnership

/-!
# An exhausted pool

With no slab free the pool evicts the idle request that was used least
recently. That helps when the request owned some slab alone, and it may be the
caller.
-/
namespace FusionMlx.SlabOwnership

open BlockHashing (PyError)
open OrderedDict PagedKVPool Slab

variable {ρ : Type} [DecidableEq ρ] {o : SetOrder ρ} {s s' t : KVPool ρ} {r v tag : ρ} {os : List ρ} {pb phys : Nat}
  {active : List ρ}

def CanFree (o : SetOrder ρ) (s : KVPool ρ) (active : List ρ) : Prop :=
  s.freeList ≠ [] ∨ ∃ vs : List ρ, (∀ v ∈ vs, v ∉ active) ∧ (vs.foldl (fun s v => (s.freeRequest o v).2) s).freeList ≠ []

/-- What a call that gives a slab to `r` must do: return a slab of the caller or raise `RuntimeError` and change
nothing, succeed when a slab can be freed, and take no slab from the caller. The slab a copy was asked for is exempt
from the last. -/
structure Clean (o : SetOrder ρ) (s : KVPool ρ) (r : ρ) (active : List ρ) (asked : Option Nat)
    (out : Except PyError Nat × KVPool ρ) : Prop where
  outcome : (∃ pb, out.1 = .ok pb ∧ OwnedBy out.2 pb r) ∨ out.1 = .error .runtimeError ∧ out.2 = s
  succeeds : CanFree o s active → ∃ pb, out.1 = .ok pb
  keeps : ∀ pb, asked ≠ some pb → OwnedBy s pb r → OwnedBy out.2 pb r
  fresh : ∀ pb, out.1 = .ok pb → asked ≠ some pb → ¬ OwnedBy s pb r

/-- The calls that give a slab are clean. -/
def GivesCleanly (o : SetOrder ρ) (s : KVPool ρ) : Op ρ → Prop
  | .allocBlock r ids => Clean o s r (s.activeFor r ids) none (s.allocBlock o r ids)
  | .ensureWritable r phys => Clean o s r (s.activeFor r none) (some phys) (s.ensureWritable o r phys)
  | _ => True

def SoleOwner (s : KVPool ρ) (v : ρ) : Prop := ∃ pb, s.owners.get? pb = some [v]

/-- An allocation finds a free slab or a victim other than the caller that owns a slab alone. A copy is asked for a slab
of the caller, or for a shared one with a free slab, such a victim, or no victim at all. -/
def Fits (o : SetOrder ρ) (s : KVPool ρ) : Op ρ → Prop
  | .allocBlock r ids =>
    s.freeList ≠ [] ∨ ∃ v, (s.touch r).victim o (s.activeFor r ids) = some v ∧ v ≠ r ∧ SoleOwner s v
  | .ensureWritable r phys =>
    if (s.refcount.get? phys).getD 0 ≤ 1 then OwnedBy s phys r
    else s.freeList ≠ [] ∨ ∀ v, s.victim o (s.activeFor r none) = some v → v ≠ r ∧ SoleOwner s v
  | _ => True

omit [DecidableEq ρ] in
theorem ownedBy_iff (h : Tidy s) : OwnedBy s pb r ↔ ∃ tag os, slab s pb = .held tag os ∧ r ∈ os := by
  constructor
  · rintro ⟨os, how, hr⟩
    rcases h.cases pb with hf | ⟨tag, os', hh, -⟩
    · have : s.owners.get? pb = none := congrArg Slab.owners hf
      rw [this] at how
      cases how
    · have : s.owners.get? pb = some os' := congrArg Slab.owners hh
      rw [this, Option.some.injEq] at how
      exact ⟨tag, os', hh, how ▸ hr⟩
  · rintro ⟨tag, os, hh, hr⟩
    exact ⟨os, congrArg Slab.owners hh, hr⟩

/-- Another request's share stays. -/
theorem Slab.Gives.keeps {x y : Slab ρ} (h : Gives v x y) (hv : v ≠ r) (hx : x = .held tag os) (hr : r ∈ os) :
    ∃ tag' os', y = .held tag' os' ∧ r ∈ os' := by
  have hleft : ∀ {os' : List ρ}, os' = os → r ∈ os'.filter (· ≠ v) := by
    rintro os' rfl
    exact List.mem_filter.2 ⟨hr, by simpa using fun he => hv he.symm⟩
  cases h with
  | none => exact ⟨tag, os, hx, hr⟩
  | last tag' os' left =>
    have := hleft (Slab.held_inj hx).2
    rw [left] at this
    cases this
  | share tag' tag'' os' => exact ⟨tag'', _, rfl, hleft (Slab.held_inj hx).2⟩

theorem Slab.Gives.of_free {x y : Slab ρ} (h : Gives v x y) (hx : x = .free) : y = .free := by
  cases h with
  | none => exact hx
  | last => rfl
  | share => exact absurd hx Slab.held_ne_free

/-- A request outside the active ids that owns no slab by its tag gives nothing free. -/
theorem Slab.Gives.tagged {x y : Slab ρ} (h : Gives v x y) (hx : x = .held tag os) (hm : tag ∈ os) (hv : v ≠ tag) :
    ∃ os', y = .held tag os' := by
  cases h with
  | none => exact ⟨os, hx⟩
  | last tag' os' left =>
    obtain ⟨rfl, rfl⟩ := Slab.held_inj hx
    have : tag' ∈ os'.filter (· ≠ v) := List.mem_filter.2 ⟨hm, by simpa using fun he => hv he.symm⟩
    rw [left] at this
    cases this
  | share tag' tag'' os' mem left kept =>
    obtain ⟨rfl, rfl⟩ := Slab.held_inj hx
    rw [kept (fun he => hv he.symm)]
    exact ⟨_, rfl⟩

theorem victim_none_iff (o : SetOrder ρ) (s : KVPool ρ) (active : List ρ) :
    s.victim o active = none ↔ ∀ pb tag, s.inUse.get? pb = some tag → tag ∈ active := by
  rw [KVPool.victim, List.argmin_eq_none]
  constructor
  · intro hnil pb tag htag
    by_contra hout
    have hmem : tag ∈ s.evictable active := by
      rw [KVPool.evictable, List.mem_dedup, List.mem_filter]
      exact ⟨List.mem_map_of_mem ((Dict.get?_eq_some_iff ..).1 htag), by simpa using hout⟩
    have := (o.mem_ids _ tag).2 hmem
    rw [hnil] at this
    cases this
  · intro hall
    rw [List.eq_nil_iff_forall_not_mem]
    intro x hx
    have hmem := (o.mem_ids _ x).1 hx
    rw [KVPool.evictable, List.mem_dedup, List.mem_filter, List.mem_map] at hmem
    obtain ⟨⟨e, he, rfl⟩, hout⟩ := hmem
    have hin := hall e.1 e.2 ((Dict.get?_eq_some_iff ..).2 he)
    simp [hin] at hout

/-- When every slab has its tag among the active ids, freeing other requests frees none. -/
theorem freeOthers_none (vs : List ρ) (h : Tidy s) (hfree : s.freeList = [])
    (htags : ∀ pb tag os, slab s pb = .held tag os → tag ∈ active) (hvs : ∀ v ∈ vs, v ∉ active) :
    (vs.foldl (fun s v => (s.freeRequest o v).2) s).freeList = [] := by
  induction vs generalizing s with
  | nil => exact hfree
  | cons v vs ih =>
    obtain ⟨h', hg⟩ := freeRequest_gives h o v
    have hv := hvs v List.mem_cons_self
    have hheld : ∀ pb tag os, slab s pb = .held tag os → ∃ os', slab (s.freeRequest o v).2 pb = .held tag os' := by
      intro pb tag os hslab
      obtain ⟨tag', os', hh, hm, -⟩ | hf := (h.cases pb).symm
      · obtain ⟨rfl, rfl⟩ := Slab.held_inj (hh.symm.trans hslab)
        exact (hg pb).tagged hh hm (fun he => hv (he ▸ htags pb _ _ hh))
      · rw [hf] at hslab
        exact absurd hslab Slab.free_ne_held
    refine ih h' ?_ ?_ (fun v' hv' => hvs v' (List.mem_cons_of_mem _ hv'))
    · rw [List.eq_nil_iff_forall_not_mem]
      intro pb hpb
      obtain ⟨hlt, hfreed⟩ := (h'.free pb).1 hpb
      rcases h.cases pb with hf | ⟨tag, os, hh, -⟩
      · rw [freeRequest_numBlocks] at hlt
        have := (h.free pb).2 ⟨hlt, hf⟩
        rw [hfree] at this
        cases this
      · obtain ⟨os', hos'⟩ := hheld pb tag os hh
        rw [hfreed] at hos'
        exact Slab.free_ne_held hos'
    · intro pb tag os hslab
      rcases h.cases pb with hf | ⟨tag', os', hh, -⟩
      · have hsame := (hg pb).of_free hf
        rw [hslab] at hsame
        exact absurd hsame Slab.held_ne_free
      · obtain ⟨os'', hos''⟩ := hheld pb tag' os' hh
        rw [(Slab.held_inj (hslab.symm.trans hos'')).1]
        exact htags pb tag' os' hh

omit [DecidableEq ρ] in
/-- A free slab goes to the caller, who did not own it, and the other slabs are left alone. -/
theorem handOut_ok {rest : List Nat} (h : Tidy s) (hf : s.freeList = pb :: rest) (r : ρ) :
    (s.handOut r).1 = .ok pb ∧ OwnedBy (s.handOut r).2 pb r ∧ ¬ OwnedBy s pb r ∧
      ∀ pb' q, OwnedBy s pb' q → OwnedBy (s.handOut r).2 pb' q := by
  obtain ⟨h', hnew, hfree, hother⟩ := handOut_tidy h hf r
  have hout : s.handOut r = (.ok pb, { s with freeList := rest }.record pb r 1 [r]) := by
    rw [KVPool.handOut, hf]
  have hnot : ∀ q, ¬ OwnedBy s pb q := by
    rintro q ⟨os, how, -⟩
    have : s.owners.get? pb = none := congrArg Slab.owners hfree
    rw [this] at how
    cases how
  rw [hout]
  refine ⟨rfl, ⟨[r], congrArg Slab.owners hnew, List.mem_singleton.2 rfl⟩, hnot r, ?_⟩
  rintro pb' q ⟨os, how, hq⟩
  have hne : pb' ≠ pb := by
    rintro rfl
    exact hnot q ⟨os, how, hq⟩
  exact ⟨os, (congrArg Slab.owners (hother pb' hne)).trans how, hq⟩

/-- What an eviction leaves: the victim's own slabs are free, and the shares of others stay. -/
theorem evicted (h : Tidy s) (hfree : s.freeList = []) (o : SetOrder ρ) (v : ρ) :
    Tidy (s.freeRequest o v).2 ∧ (∀ pb, pb ∈ (s.freeRequest o v).2.freeList ↔ s.owners.get? pb = some [v]) ∧
      ∀ pb q, v ≠ q → OwnedBy s pb q → OwnedBy (s.freeRequest o v).2 pb q := by
  obtain ⟨h', hg⟩ := freeRequest_gives h o v
  refine ⟨h', fun pb => ?_, fun pb q hv hq => ?_⟩
  · rw [h'.free, freeRequest_numBlocks]
    exact soleOwner_iff h hfree hg pb
  · obtain ⟨tag, os, hslab, hmem⟩ := (ownedBy_iff h).1 hq
    obtain ⟨tag', os', hslab', hmem'⟩ := (hg pb).keeps hv hslab hmem
    exact (ownedBy_iff h').2 ⟨tag', os', hslab', hmem'⟩

theorem makeRoom_free (hfree : s.freeList ≠ []) : s.makeRoom o active = (.ok (), s) := by
  rw [KVPool.makeRoom, if_neg hfree]

theorem makeRoom_full (hfree : s.freeList = []) (hv : s.victim o active = none) :
    s.makeRoom o active = (.error .runtimeError, s) := by
  simp only [KVPool.makeRoom, if_pos hfree, hv]

theorem makeRoom_victim (hfree : s.freeList = []) (hv : s.victim o active = some v) :
    s.makeRoom o active = (.ok (), (s.freeRequest o v).2) := by
  simp only [KVPool.makeRoom, if_pos hfree, hv]

theorem allocBlock_of_room {ids : Option (List ρ)} (hroom : (s.touch r).makeRoom o (s.activeFor r ids) = (.ok (), t)) :
    s.allocBlock o r ids = t.handOut r := by
  simp only [KVPool.allocBlock, hroom]

/-- An eviction frees no slab when the victim is no sole owner. -/
theorem evicted_nil_iff (h : Tidy s) (hfree : s.freeList = []) (o : SetOrder ρ) (v : ρ) :
    (s.freeRequest o v).2.freeList = [] ↔ ¬ SoleOwner s v := by
  have hsole := (evicted h hfree o v).2.1
  constructor
  · rintro hnil ⟨pb, hp⟩
    have := (hsole pb).2 hp
    rw [hnil] at this
    cases this
  · intro hno
    rw [List.eq_nil_iff_forall_not_mem]
    exact fun pb hpb => hno ⟨pb, (hsole pb).1 hpb⟩

/-- An allocation is clean exactly when it finds a free slab or evicts another request that owns a slab alone. -/
theorem allocBlock_clean_iff (h : Tidy s) (o : SetOrder ρ) (r : ρ) (ids : Option (List ρ)) :
    Clean o s r (s.activeFor r ids) none (s.allocBlock o r ids) ↔ Fits o s (.allocBlock r ids) := by
  have h₀ := touch_tidy h r
  by_cases hfree : s.freeList = []
  · have hfree₀ : (s.touch r).freeList = [] := hfree
    cases hv : (s.touch r).victim o (s.activeFor r ids) with
    | none =>
      have hout : s.allocBlock o r ids = (.error .runtimeError, s.touch r) := by
        simp only [KVPool.allocBlock, makeRoom_full hfree₀ hv]
      have hmoved : s.touch r ≠ s := fun he => Nat.succ_ne_self _ (congrArg KVPool.step he)
      constructor
      · intro hc
        rcases hc.outcome with ⟨pb, hok, -⟩ | ⟨-, hsame⟩
        · rw [hout] at hok
          cases hok
        · rw [hout] at hsame
          exact absurd hsame hmoved
      · rintro (hne | ⟨v, hv', -⟩)
        · exact absurd hfree hne
        · rw [hv] at hv'
          cases hv'
    | some v =>
      have hout : s.allocBlock o r ids = ((s.touch r).freeRequest o v).2.handOut r :=
        allocBlock_of_room (makeRoom_victim hfree₀ hv)
      obtain ⟨h₁, hsole, hothers⟩ := evicted h₀ hfree₀ o v
      have hfits : Fits o s (.allocBlock r ids) ↔ v ≠ r ∧ SoleOwner s v := by
        simp [Fits, hfree, hv]
      rw [hfits]
      cases hf : ((s.touch r).freeRequest o v).2.freeList with
      | nil =>
        have hno : ¬ SoleOwner s v := (evicted_nil_iff h₀ hfree₀ o v).1 hf
        have herr : (s.allocBlock o r ids).1 = .error .indexError := by
          rw [hout, KVPool.handOut, hf]
        constructor
        · intro hc
          rcases hc.outcome with ⟨pb, hok, -⟩ | ⟨herr', -⟩
          · rw [herr] at hok
            cases hok
          · rw [herr] at herr'
            cases herr'
        · exact fun hs => absurd hs.2 hno
      | cons pb rest =>
        obtain ⟨hok, hown, -, hkeep⟩ := handOut_ok h₁ hf r
        have hp : s.owners.get? pb = some [v] := (hsole pb).1 (hf ▸ List.mem_cons_self)
        rw [hout]
        constructor
        · intro hc
          refine ⟨?_, pb, hp⟩
          rintro rfl
          exact hc.fresh pb hok (by rintro ⟨⟩) ⟨[v], hp, List.mem_singleton.2 rfl⟩
        · rintro ⟨hvr, -⟩
          refine ⟨.inl ⟨pb, hok, hown⟩, fun _ => ⟨pb, hok⟩, fun pb' _ hq => ?_, ?_⟩
          · exact hkeep pb' r (hothers pb' r hvr hq)
          · rintro pb' hok' - ⟨os, how, hr⟩
            rw [hok, Except.ok.injEq] at hok'
            subst hok'
            rw [hp, Option.some.injEq] at how
            subst how
            exact hvr (List.mem_singleton.1 hr).symm
  · obtain ⟨pb, rest, hf⟩ := List.exists_cons_of_ne_nil hfree
    have hfree₀ : (s.touch r).freeList ≠ [] := hfree
    obtain ⟨hok, hown, hfresh, hkeep⟩ := handOut_ok (s := s.touch r) h₀ hf r
    have hout : s.allocBlock o r ids = (s.touch r).handOut r := allocBlock_of_room (makeRoom_free hfree₀)
    rw [hout]
    refine ⟨fun _ => .inl hfree, fun _ => ⟨.inl ⟨pb, hok, hown⟩, fun _ => ⟨pb, hok⟩, ?_, ?_⟩⟩
    · exact fun pb' _ hq => hkeep pb' r hq
    · intro pb' hok' _
      rw [hok, Except.ok.injEq] at hok'
      exact hok' ▸ hfresh

/-- With room for the copy the call returns the slab it took. -/
theorem ensureWritable_of_room {rest : List Nat} {rc : Int} (hrc : s.refcount.get? phys = some rc) (hgt : ¬ rc ≤ 1)
    (hroom : s.makeRoom o (s.activeFor r none) = (.ok (), t)) (ht : Tidy t) (hf : t.freeList = pb :: rest)
    (hpb : slab t phys = .held tag os) :
    pb ≠ phys ∧ (s.ensureWritable o r phys).1 = .ok pb ∧
      ∀ pb' q, pb' ≠ phys → OwnedBy (t.handOut r).2 pb' q → OwnedBy (s.ensureWritable o r phys).2 pb' q := by
  have hne : phys ≠ pb := by
    rintro rfl
    rw [((ht.free phys).1 (hf ▸ List.mem_cons_self)).2] at hpb
    exact absurd hpb Slab.free_ne_held
  have how : (({ t with freeList := rest }.record pb r 1 [r]).owners.get? phys) = some os :=
    (Dict.get?_set_ne _ _ hne).trans (congrArg Slab.owners hpb)
  refine ⟨hne.symm, ?_, ?_⟩
  · simp only [KVPool.ensureWritable, hrc, Option.getD_some, if_neg hgt, hroom, KVPool.handOut, hf, how]
  · intro pb' q hpb' hq
    rw [KVPool.handOut, hf] at hq
    obtain ⟨os', how', hq⟩ := hq
    refine ⟨os', ?_, hq⟩
    rw [ensureWritable_eq hrc hgt hroom ht hf hpb, leaveShared]
    dsimp only
    split
    · exact (Dict.get?_erase_ne _ hpb').trans how'
    · exact (Dict.get?_set_ne _ _ hpb').trans how'

/-- A shared slab: with a slab of another request to take, the call is clean. -/
theorem copy_clean {rest : List Nat} {rc : Int} (hrc : s.refcount.get? phys = some rc) (hgt : ¬ rc ≤ 1)
    (hroom : s.makeRoom o (s.activeFor r none) = (.ok (), t)) (ht : Tidy t) (hf : t.freeList = pb :: rest)
    (hpb : slab t phys = .held tag os) (hkept : ∀ pb', OwnedBy s pb' r → OwnedBy t pb' r) (hnew : ¬ OwnedBy s pb r) :
    Clean o s r active (some phys) (s.ensureWritable o r phys) := by
  obtain ⟨hne, hok, hrest⟩ := ensureWritable_of_room hrc hgt hroom ht hf hpb
  obtain ⟨-, hown, -, hkeep⟩ := handOut_ok ht hf r
  refine ⟨.inl ⟨pb, hok, hrest pb r hne hown⟩, fun _ => ⟨pb, hok⟩, fun pb' hpb' hq => ?_, fun pb' hok' _ => ?_⟩
  · exact hrest pb' r (fun he => hpb' (he ▸ rfl)) (hkeep pb' r (hkept pb' hq))
  · rw [hok, Except.ok.injEq] at hok'
    exact hok' ▸ hnew

/-- Every tag is active: no slab can be freed. -/
theorem not_canFree (h : Tidy s) (hfree : s.freeList = []) (hv : s.victim o active = none) : ¬ CanFree o s active := by
  rintro (hne | ⟨vs, hvs, hne⟩)
  · exact hne hfree
  · refine hne (freeOthers_none vs h hfree (fun pb tag os hslab => ?_) hvs)
    exact (victim_none_iff o s active).1 hv pb tag (congrArg Slab.inUse hslab)

/-- A call of `ensure_writable` is clean exactly under `Fits`. -/
theorem ensureWritable_clean_iff (h : Tidy s) (o : SetOrder ρ) (r : ρ) (phys : Nat) :
    Clean o s r (s.activeFor r none) (some phys) (s.ensureWritable o r phys) ↔ Fits o s (.ensureWritable r phys) := by
  by_cases hle : (s.refcount.get? phys).getD 0 ≤ 1
  · have hout : s.ensureWritable o r phys = (.ok phys, s) := by
      simp only [KVPool.ensureWritable, if_pos hle]
    rw [hout]
    simp only [Fits, if_pos hle]
    constructor
    · intro hc
      rcases hc.outcome with ⟨pb, hok, hown⟩ | ⟨herr, -⟩
      · cases hok
        exact hown
      · cases herr
    · intro hown
      exact ⟨.inl ⟨phys, rfl, hown⟩, fun _ => ⟨phys, rfl⟩, fun _ _ hq => hq,
        fun pb hok hne => absurd (by rw [Except.ok.injEq] at hok; rw [hok]) hne⟩
  -- the slab is shared, so it is held
  have hfits : Fits o s (.ensureWritable r phys) ↔
      s.freeList ≠ [] ∨ ∀ v, s.victim o (s.activeFor r none) = some v → v ≠ r ∧ SoleOwner s v := by
    simp only [Fits, if_neg hle]
  rw [hfits]
  rcases h.cases phys with hf | ⟨tag, os, hh, hm, hn⟩
  · have hrc : s.refcount.get? phys = none := congrArg Slab.refcount hf
    simp [hrc] at hle
  have hrc : s.refcount.get? phys = some (os.length : Int) := congrArg Slab.refcount hh
  have hgt : ¬ (os.length : Int) ≤ 1 := by simpa [hrc] using hle
  have hlen : 1 < os.length := by omega
  by_cases hfree : s.freeList = []
  · cases hv : s.victim o (s.activeFor r none) with
    | none =>
      have hout : s.ensureWritable o r phys = (.error .runtimeError, s) := by
        simp only [KVPool.ensureWritable, if_neg hle, makeRoom_full hfree hv]
      rw [hout]
      refine ⟨fun _ => .inr (by rintro _ ⟨⟩), fun _ => ?_⟩
      exact ⟨.inr ⟨rfl, rfl⟩, fun hcan => absurd hcan (not_canFree h hfree hv), fun _ _ hq => hq, by rintro _ ⟨⟩⟩
    | some v =>
      have hroom := makeRoom_victim hfree hv
      obtain ⟨h₁, hsole, hothers⟩ := evicted h hfree o v
      obtain ⟨tag₁, os₁, hx, -⟩ := balanced_some_iff (r := r) hn hm hlen (hh ▸ (freeRequest_gives h o v).2 phys)
      simp only [hfree, ne_eq, not_true_eq_false, false_or, Option.some.injEq, forall_eq']
      cases hf : (s.freeRequest o v).2.freeList with
      | nil =>
        have hno : ¬ SoleOwner s v := (evicted_nil_iff h hfree o v).1 hf
        have herr : (s.ensureWritable o r phys).1 = .error .indexError := by
          simp only [KVPool.ensureWritable, if_neg hle, hroom, KVPool.handOut, hf]
        constructor
        · intro hc
          rcases hc.outcome with ⟨pb, hok, -⟩ | ⟨herr', -⟩
          · rw [herr] at hok
            cases hok
          · rw [herr] at herr'
            cases herr'
        · exact fun hs => absurd hs.2 hno
      | cons pb rest =>
        have hp : s.owners.get? pb = some [v] := (hsole pb).1 (hf ▸ List.mem_cons_self)
        constructor
        · intro hc
          refine ⟨?_, pb, hp⟩
          rintro rfl
          obtain ⟨hne, hok, -⟩ := ensureWritable_of_room hrc hgt hroom h₁ hf hx
          refine hc.fresh pb hok ?_ ⟨[v], hp, List.mem_singleton.2 rfl⟩
          exact fun he => hne (Option.some.inj he).symm
        · rintro ⟨hvr, -⟩
          refine copy_clean hrc hgt hroom h₁ hf hx (fun pb' hq => hothers pb' r hvr hq) ?_
          rintro ⟨os', how, hr⟩
          rw [hp, Option.some.injEq] at how
          subst how
          exact hvr (List.mem_singleton.1 hr).symm
  · obtain ⟨pb, rest, hf⟩ := List.exists_cons_of_ne_nil hfree
    refine ⟨fun _ => .inl hfree, fun _ => ?_⟩
    exact copy_clean hrc hgt (makeRoom_free hfree) h hf hh (fun _ hq => hq) (handOut_ok h hf r).2.2.1

/-- As long as no call of the run miscounted, the next call that gives a slab is clean exactly when it fits. -/
theorem exhaustion_clean_iff (h : Reachable (fun s c => ¬ Miscounts c.1 s c.2) s) (o : SetOrder ρ) (op : Op ρ) :
    GivesCleanly o s op ↔ Fits o s op := by
  have ht := (reachable_owned h).tidy
  cases op with
  | allocBlock r ids => exact allocBlock_clean_iff ht o r ids
  | ensureWritable r phys => exact ensureWritable_clean_iff ht o r phys
  | setActiveIds | touchActive | touch | shareBlock | freeRequest | freeBlock => exact .rfl

theorem copy_with_free_slab :
    GivesCleanly (SetOrder.asFilled String) (twoSlabs [.allocBlock "a" none, .shareBlock "b" 0])
      (.ensureWritable "b" 0) := by
  have hrun : Reachable (fun s c => ¬ Miscounts c.1 s c.2) (twoSlabs [.allocBlock "a" none, .shareBlock "b" 0]) := by
    refine twoSlabs_reachable _ ⟨id, ?_, trivial⟩
    rintro ⟨os, how, hm⟩
    have h₁ : (twoSlabs [.allocBlock "a" none]).owners.get? 0 = some ["a"] := by decide +kernel
    cases h₁.symm.trans how
    simp at hm
  refine (exhaustion_clean_iff hrun _ _).2 ?_
  have hrc : ((twoSlabs [.allocBlock "a" none, .shareBlock "b" 0]).refcount.get? 0).getD 0 = 2 := by decide +kernel
  have hfree : (twoSlabs [.allocBlock "a" none, .shareBlock "b" 0]).freeList = [1] := by decide +kernel
  simp [Fits, hrc, hfree]

/-- The victim shares its only slab with another request. It loses its share, no slab is freed, and the pop raises
`IndexError`, though another idle request owns a slab alone. -/
theorem shared_victim_frees_nothing :
    ∃ s : KVPool String, Reachable (fun s c => ¬ Miscounts c.1 s c.2) s ∧
      s.owners.get? 0 = some ["a", "b"] ∧ s.owners.get? 1 = some ["c"] ∧
      (s.allocBlock (SetOrder.asFilled String) "d" none).1 = .error .indexError ∧
      (s.allocBlock (SetOrder.asFilled String) "d" none).2.owners.get? 0 = some ["b"] ∧
      ¬ GivesCleanly (SetOrder.asFilled String) s (.allocBlock "d" none) := by
  have herr : ((twoSlabs [.allocBlock "a" none, .shareBlock "b" 0, .allocBlock "c" none]).allocBlock
      (SetOrder.asFilled String) "d" none).1 = .error .indexError := by decide +kernel
  refine ⟨twoSlabs [.allocBlock "a" none, .shareBlock "b" 0, .allocBlock "c" none], ?_, by decide +kernel,
    by decide +kernel, herr, by decide +kernel, fun hc => ?_⟩
  · refine twoSlabs_reachable _ ⟨id, ?_, id, trivial⟩
    rintro ⟨os, how, hm⟩
    have h₁ : (twoSlabs [.allocBlock "a" none]).owners.get? 0 = some ["a"] := by decide +kernel
    cases h₁.symm.trans how
    simp at hm
  · rcases hc.outcome with ⟨pb, hok, -⟩ | ⟨hrt, -⟩
    · rw [herr] at hok
      cases hok
    · rw [herr] at hrt
      cases hrt

end FusionMlx.SlabOwnership
