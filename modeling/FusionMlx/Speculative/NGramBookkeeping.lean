import FusionMlx.Speculative.NGramPredictor

/-!
# The books of the n-gram predictor

The entry counter is raised whenever an entry has one continuation, not when a
key is new, and the eviction takes out no more than half of the capacity. Where
neither matters the counter is the number of keys and stays within the capacity;
the counts are right in every run.
-/
namespace FusionMlx.NGramPredictor

open OrderedDict Histories Runs

variable {τ : Type} [DecidableEq τ]

def size (tables : List (Nat × Table τ)) : Nat := (tables.map (fun t => t.2.entries.length)).sum

def entryOf (p : Predictor τ) (n : Nat) (key : List τ) : Option (Entry τ) := (tableOf p n).bind (fun table => table.get? key)

inductive Op (τ : Type) where
  | add (token : τ)
  | reset

section Runs

variable (cfg : Config)

def next (p : Predictor τ) : Op τ → Predictor τ
  | .add token => addToken cfg p token
  | .reset => reset p

theorem addTokens_eq (p : Predictor τ) (tokens : List τ) :
    addTokens cfg p tokens = runList (next cfg) p (tokens.map .add) := by
  rw [addTokens, runList, List.foldl_map]
  rfl

/-- What an eviction takes out, by the numbers of n-grams that were seen once. -/
def removable : List Nat → Nat
  | counts => if cfg.maxEntries / 2 = 0 then min 1 (counts.headD 0) else min (cfg.maxEntries / 2) counts.sum

def once (entry : Entry τ) : Nat := if entry.total id ≤ 1 then 1 else 0

def isNew (history : List τ) (t : Nat × Table τ) : Bool :=
  decide (t.1 ≤ history.length) && (t.2.get? (lastGram history t.1)).isNone

/-- How many n-grams have been seen once, when another token follows the history. -/
def onceAfter (history : List τ) (t : Nat × Table τ) : Nat :=
  if t.1 ≤ history.length then
    (if ((t.2.get? (lastGram history t.1)).getD Dict.empty).total id = 0 then 1 else 0) +
      (t.2.erase (lastGram history t.1)).total once
  else t.2.total once

/-- A token whose n-grams are new to their tables or have another continuation there. The keys, with the new ones, are
over the capacity by no more than an eviction takes out. -/
def Sound (p : Predictor τ) : Op τ → Prop
  | .reset => True
  | .add token =>
    (∀ t ∈ p.tables, t.1 ≤ p.history.length → ∀ entry ∈ t.2.get? (lastGram p.history t.1),
      ∃ other ∈ entry.keys, other ≠ token) ∧
      size p.tables + (p.tables.filter (isNew p.history)).length ≤
        cfg.maxEntries + removable cfg (p.tables.map (onceAfter p.history))

instance (p : Predictor τ) (op : Op τ) : Decidable (Sound cfg p op) :=
  match op with
  | .reset => isTrue trivial
  | .add _ => inferInstanceAs (Decidable (_ ∧ _))

end Runs

variable {target : Nat}

theorem removeKeys_removed {removed : Nat} (keys : List (List τ)) (table : Table τ) (h : removed < target) :
    (removeKeys target keys removed table).2 = min target (removed + keys.length) := by
  induction keys generalizing removed table with
  | nil => simp [removeKeys]; omega
  | cons key keys ih =>
    rw [removeKeys]
    split
    · simp only [List.length_cons]
      omega
    · rw [ih _ (by omega), List.length_cons]
      congr 1
      omega

theorem removeKeys_zero (keys : List (List τ)) (removed : Nat) (table : Table τ) :
    (removeKeys 0 keys removed table).2 = removed + min 1 keys.length := by
  cases keys with
  | nil => simp [removeKeys]
  | cons key keys => simp [removeKeys]

theorem evictTables_removed {removed : Nat} (tables : List (Nat × Table τ)) (h : removed < target) :
    (evictTables target tables removed).2 = min target (removed + (tables.map (fun t => (keysToRemove t.2).length)).sum) := by
  induction tables generalizing removed with
  | nil => simp [evictTables]; omega
  | cons t rest ih =>
    obtain ⟨n, table⟩ := t
    have hkeys := removeKeys_removed (keysToRemove table) table h
    rw [evictTables]
    dsimp only
    rw [hkeys]
    split
    · simp only [List.map_cons, List.sum_cons]
      omega
    · dsimp only
      rw [ih (by omega)]
      simp only [List.map_cons, List.sum_cons]
      omega

/-- The number of keys an eviction takes out. -/
theorem evict_removed (cfg : Config) (tables : List (Nat × Table τ)) :
    (evictTables (cfg.maxEntries / 2) tables 0).2 = removable cfg (tables.map (fun t => (keysToRemove t.2).length)) := by
  unfold removable
  split
  · rename_i hzero
    rw [hzero]
    cases tables with
    | nil => rfl
    | cons t rest =>
      obtain ⟨n, table⟩ := t
      simp [evictTables, removeKeys_zero]
  · rw [evictTables_removed tables (by omega), Nat.zero_add]

theorem length_erase {κ ν : Type} [DecidableEq κ] {d : Dict κ ν} {k : κ} (h : k ∈ d.keys) :
    (d.erase k).entries.length + 1 = d.entries.length := by
  obtain ⟨v, hv⟩ := (d.mem_keys_iff k).1 h
  have hperm := (Dict.entries_perm_erase hv).length_eq
  rw [List.length_cons] at hperm
  exact hperm.symm

theorem removeKeys_size (keys : List (List τ)) (removed : Nat) (table : Table τ) (hnodup : keys.Nodup)
    (hmem : ∀ key ∈ keys, key ∈ table.keys) :
    (removeKeys target keys removed table).1.entries.length + (removeKeys target keys removed table).2 =
      table.entries.length + removed := by
  induction keys generalizing removed table with
  | nil => rfl
  | cons key keys ih =>
    obtain ⟨hnew, hnodup⟩ := List.nodup_cons.1 hnodup
    have herase := length_erase (hmem key (List.mem_cons_self ..))
    rw [removeKeys]
    split
    · dsimp only
      omega
    · rw [ih _ _ hnodup]
      · omega
      · intro other hother
        refine Dict.mem_keys_erase.2 ⟨hmem other (List.mem_cons_of_mem _ hother), ?_⟩
        rintro rfl
        exact hnew hother

omit [DecidableEq τ] in
theorem keysToRemove_nodup (table : Table τ) : (keysToRemove table).Nodup :=
  table.nodup.sublist (List.filter_sublist.map _)

variable {key : List τ}

omit [DecidableEq τ] in
theorem mem_of_keysToRemove {table : Table τ} (h : key ∈ keysToRemove table) : key ∈ table.keys :=
  (List.filter_sublist.map _).subset h

theorem evictTables_size (tables : List (Nat × Table τ)) (removed : Nat) :
    size (evictTables target tables removed).1 + (evictTables target tables removed).2 = size tables + removed := by
  induction tables generalizing removed with
  | nil => rfl
  | cons t rest ih =>
    obtain ⟨n, table⟩ := t
    have hsize := @removeKeys_size τ _ target (keysToRemove table) removed table (keysToRemove_nodup table)
      (fun key hkey => mem_of_keysToRemove hkey)
    have hrest := ih (removeKeys target (keysToRemove table) removed table).2
    unfold size at hrest ⊢
    rw [evictTables]
    dsimp only
    split
    · simp only [List.map_cons, List.sum_cons]
      omega
    · simp only [List.map_cons, List.sum_cons]
      omega

/-- A table after a step: the same order, and no entry that was not there. -/
def Kept (t' t : Nat × Table τ) : Prop := t'.1 = t.1 ∧ ∀ key entry, t'.2.get? key = some entry → t.2.get? key = some entry

variable {entry : Entry τ}

theorem removeKeys_get (keys : List (List τ)) (removed : Nat) (table : Table τ)
    (h : (removeKeys target keys removed table).1.get? key = some entry) :
    table.get? key = some entry := by
  induction keys generalizing removed table with
  | nil => exact h
  | cons k keys ih =>
    rw [removeKeys] at h
    split at h
    · exact Dict.get?_of_erase h
    · exact Dict.get?_of_erase (ih _ _ h)

theorem evictTables_kept (tables : List (Nat × Table τ)) (removed : Nat) :
    List.Forall₂ Kept (evictTables target tables removed).1 tables := by
  induction tables generalizing removed with
  | nil => exact .nil
  | cons t rest ih =>
    obtain ⟨n, table⟩ := t
    have hhead : Kept (n, (removeKeys target (keysToRemove table) removed table).1) (n, table) :=
      ⟨rfl, fun key entry h => removeKeys_get _ _ _ h⟩
    rw [evictTables]
    dsimp only
    split
    · refine .cons hhead (List.forall₂_same.2 (fun t _ => ⟨rfl, fun _ _ h => h⟩))
    · exact .cons hhead (ih _)

theorem find_kept {tables' tables : List (Nat × Table τ)} (h : List.Forall₂ Kept tables' tables) {n : Nat}

    (hfind : ((tables'.find? (fun t => t.1 = n)).map Prod.snd).bind (fun table => table.get? key) = some entry) :
    ((tables.find? (fun t => t.1 = n)).map Prod.snd).bind (fun table => table.get? key) = some entry := by
  induction h with
  | nil => cases hfind
  | @cons t' t tables' tables hkept _ ih =>
    by_cases hn : t.1 = n
    · have hn' : t'.1 = n := hkept.1.trans hn
      simp only [List.find?_cons, hn', hn, decide_true, Option.map_some, Option.bind_some] at hfind ⊢
      exact hkept.2 key entry hfind
    · have hn' : ¬ t'.1 = n := fun h => hn (hkept.1.symm.trans h)
      simp only [List.find?_cons, hn', hn, decide_false] at hfind ⊢
      exact ih hfind

theorem length_bump (entry : Entry τ) (token : τ) :
    (bump entry token).entries.length = entry.entries.length + if token ∈ entry.keys then 0 else 1 := by
  unfold bump
  split
  · rename_i hmem
    simp [Dict.set, hmem]
  · rename_i hmem
    rw [Dict.entries_set_new hmem, List.length_append]
    rfl

variable {token : τ}

/-- Another continuation makes two. -/
theorem length_bump_ne_one {other : τ} (h : other ∈ entry.keys) (hne : other ≠ token) :
    (bump entry token).entries.length ≠ 1 := by
  have hlen : entry.entries.length = entry.keys.length := (List.length_map _).symm
  have hpos := List.length_pos_of_mem h
  rw [length_bump]
  split
  · rename_i htoken
    intro hone
    obtain ⟨key, hkey⟩ := List.length_eq_one_iff.1 (show entry.keys.length = 1 by omega)
    rw [hkey, List.mem_singleton] at h htoken
    exact hne (h.trans htoken.symm)
  · omega

omit [DecidableEq τ] in
theorem length_keysToRemove (table : Table τ) : (keysToRemove table).length = table.total once := by
  rw [keysToRemove, List.length_map, Dict.total]
  induction table.entries with
  | nil => rfl
  | cons e rest ih => by_cases he : e.2.total id ≤ 1 <;> simp [once, he, ih, Nat.add_comm]

theorem once_bumped (table : Table τ) (key : List τ) :
    once (bumped table key token) = if ((table.get? key).getD Dict.empty).total id = 0 then 1 else 0 := by
  have htotal : ∀ entry : Entry τ, (bump entry token).total id = entry.total id + 1 := by
    intro entry
    rw [bump, Dict.total_set]
    cases hget : entry.get? token with
    | none => rw [Dict.total_erase_of_none id hget, Option.getD_none, Nat.add_comm]; rfl
    | some n => rw [Dict.total_of_get id hget, Option.getD_some]; simp only [id]; omega
  rw [once, bumped, htotal]
  simp

theorem observe_once (history : List τ) (t : Nat × Table τ) :
    (keysToRemove (observe history token t.1 t.2).1).length = onceAfter history t := by
  rw [length_keysToRemove, observe, onceAfter]
  split
  · rw [Dict.total_set, once_bumped]
  · rfl

/-- A table with a token that is new behind its n-gram, or one of several, raises the counter when it gets a key. -/
theorem observe_size {history : List τ} {t : Nat × Table τ}
    (h : t.1 ≤ history.length → ∀ entry, t.2.get? (lastGram history t.1) = some entry →
      ∃ other ∈ entry.keys, other ≠ token) :
    (observe history token t.1 t.2).1.entries.length = t.2.entries.length + (if isNew history t then 1 else 0) ∧
      (observe history token t.1 t.2).2 = isNew history t := by
  unfold observe isNew
  split
  · rename_i hlen
    dsimp only
    cases hget : t.2.get? (lastGram history t.1) with
    | none =>
      rw [Dict.entries_set_new (Dict.get?_eq_none_iff.1 hget), List.length_append]
      simp [bumped, hget, hlen, length_bump, Dict.empty, Dict.keys]
    | some entry =>
      obtain ⟨other, hother, hne⟩ := h hlen entry hget
      have hmem : lastGram history t.1 ∈ t.2.keys := (t.2.mem_keys_iff _).2 ⟨entry, hget⟩
      have htwo : (bumped t.2 (lastGram history t.1) token).entries.length ≠ 1 := by
        rw [bumped, hget]
        exact length_bump_ne_one hother hne
      simp [Dict.set, hmem, htwo]
  · rename_i hlen
    simp [hlen]

/-- The sizes before and after the tables meet a token. -/
theorem record_size {history : List τ} (tables : List (Nat × Table τ))
    (h : ∀ t ∈ tables, t.1 ≤ history.length → ∀ entry, t.2.get? (lastGram history t.1) = some entry →
      ∃ other ∈ entry.keys, other ≠ token) :
    size (tables.map (fun t => (t.1, (observe history token t.1 t.2).1))) =
      size tables + (tables.filter (isNew history)).length := by
  unfold size
  induction tables with
  | nil => rfl
  | cons t rest ih =>
    have hhead := (observe_size (h t (List.mem_cons_self ..))).1
    have hrest := ih (fun t' ht' => h t' (List.mem_cons_of_mem _ ht'))
    rw [List.filter_cons]
    simp only [List.map_cons, List.sum_cons] at hrest ⊢
    by_cases hnew : isNew history t = true
    · rw [if_pos hnew] at hhead ⊢
      rw [List.length_cons]
      omega
    · rw [if_neg hnew] at hhead ⊢
      omega

/-- The counter is the number of keys, within the capacity. -/
def Balanced (cfg : Config) (p : Predictor τ) : Prop :=
  p.totalEntries = size p.tables ∧ p.totalEntries ≤ cfg.maxEntries

variable {p : Predictor τ}

theorem record_balanced {cfg : Config} (hp : Balanced cfg p)
    (hsound : Sound cfg p (.add token)) : (record p token).totalEntries = size (record p token).tables := by
  have hsize := record_size p.tables hsound.1
  have hnew : p.tables.filter (fun t => (observe p.history token t.1 t.2).2) = p.tables.filter (isNew p.history) :=
    List.filter_congr fun t ht => (observe_size (hsound.1 t ht)).2
  simp only [record, List.map_map, Function.comp_def, List.filter_map, List.length_map]
  rw [hnew, hsize, hp.1]
  push_cast
  rfl

theorem addToken_balanced {cfg : Config} (hp : Balanced cfg p)
    (hsound : Sound cfg p (.add token)) : Balanced cfg (addToken cfg p token) := by
  have hrecord := record_balanced hp hsound
  have hroom := hsound.2
  have hgrown : size (record p token).tables = size p.tables + (p.tables.filter (isNew p.history)).length := by
    simpa only [record, List.map_map, Function.comp_def] using record_size p.tables hsound.1
  have honce : (record p token).tables.map (fun t => (keysToRemove t.2).length) = p.tables.map (onceAfter p.history) := by
    simp only [record, List.map_map, Function.comp_def, observe_once]
  rw [← hgrown, ← honce] at hroom
  unfold addToken
  dsimp only
  split
  · have hsize := @evictTables_size τ _ (cfg.maxEntries / 2) (record p token).tables 0
    have hremoved := evict_removed cfg (record p token).tables
    unfold Balanced evict
    dsimp only
    constructor
    · omega
    · omega
  · exact ⟨hrecord, by omega⟩

omit [DecidableEq τ] in
theorem size_empty {α : Type} (l : List α) (f : α → Nat) : size (l.map (fun a => (f a, (Dict.empty : Table τ)))) = 0 := by
  simp [size, Dict.empty, Function.comp_def]

theorem next_balanced {cfg : Config} {op : Op τ} (hp : Balanced cfg p) (hsound : Sound cfg p op) :
    Balanced cfg (next cfg p op) := by
  cases op with
  | add token => exact addToken_balanced hp hsound
  | reset =>
    have hzero := @size_empty τ _ p.tables Prod.fst
    exact ⟨by rw [next, reset, hzero]; rfl, Int.natCast_nonneg _⟩

omit [DecidableEq τ] in
theorem start_balanced (cfg : Config) : Balanced cfg (start cfg : Predictor τ) :=
  ⟨by rw [start, size_empty]; rfl, Int.natCast_nonneg _⟩

def Observes (n : Nat) (key : List τ) (token : τ) (x : Predictor τ × Op τ) : Bool :=
  match x.2 with
  | .add t => decide (n ≤ x.1.history.length ∧ lastGram x.1.history n = key ∧ t = token)
  | .reset => false

def countOf (entry : Option (Entry τ)) (token : τ) : Nat := (entry.bind (fun e => e.get? token)).getD 0

theorem tableOf_record (p : Predictor τ) (token : τ) (n : Nat) :
    tableOf (record p token) n = (tableOf p n).map (fun table => (observe p.history token n table).1) := by
  unfold tableOf record
  dsimp only
  rw [List.map_map, List.find?_map]
  cases hfind : p.tables.find? (fun t => t.1 = n) with
  | none => simp [Function.comp_def, hfind]
  | some t =>
    have hn : t.1 = n := by simpa using List.find?_some hfind
    simp [Function.comp_def, hfind, hn]

/-- Before the eviction the entry of the n-gram in front of the token has it once more, the others are as they were. -/
theorem entryOf_record (p : Predictor τ) (token : τ) (n : Nat) (key : List τ) :
    entryOf (record p token) n key =
      if n ≤ p.history.length ∧ lastGram p.history n = key then (tableOf p n).map (fun table => bumped table key token)
      else entryOf p n key := by
  unfold entryOf
  rw [tableOf_record]
  cases tableOf p n with
  | none => simp
  | some table =>
    simp only [Option.map_some, Option.bind_some, observe]
    by_cases hlen : n ≤ p.history.length
    · by_cases hkey : lastGram p.history n = key
      · subst hkey
        simp [hlen]
      · rw [if_pos hlen, if_neg (fun h => hkey h.2)]
        exact Dict.get?_set_ne _ _ (fun h => hkey h.symm)
    · rw [if_neg hlen, if_neg (fun h => hlen h.1)]

theorem entryOf_addToken {cfg : Config} {n : Nat}
    (h : entryOf (addToken cfg p token) n key = some entry) : entryOf (record p token) n key = some entry := by
  unfold addToken at h
  dsimp only at h
  split at h
  · exact find_kept (evictTables_kept _ _) h
  · exact h

theorem entryOf_reset (p : Predictor τ) (n : Nat) (key : List τ) : entryOf (reset p) n key = none := by
  unfold entryOf tableOf reset
  dsimp only
  rw [List.find?_map]
  cases p.tables.find? ((fun t : Nat × Table τ => decide (t.1 = n)) ∘ fun t => (t.1, Dict.empty)) with
  | none => rfl
  | some t => rfl

theorem get?_bumped (table : Table τ) (key : List τ) (token other : τ) :
    ((bumped table key token).get? other).getD 0 = countOf (table.get? key) other + if token = other then 1 else 0 := by
  unfold bumped bump countOf
  rw [Dict.get?_set]
  by_cases h : other = token
  · subst h
    cases table.get? key <;> simp [Dict.empty, Dict.get?]
  · rw [if_neg h, if_neg (fun h' => h h'.symm)]
    cases table.get? key <;> simp [Dict.empty, Dict.get?]

/-- A count that is held after a call is the count before it and the observation of the call. -/
theorem count_next {cfg : Config} {op : Op τ} {n : Nat}
    (h : entryOf (next cfg p op) n key = some entry) (token : τ) :
    countOf (some entry) token = countOf (entryOf p n key) token + if Observes n key token (p, op) then 1 else 0 := by
  cases op with
  | reset =>
    rw [next, entryOf_reset] at h
    cases h
  | add t =>
    have hrecord := entryOf_addToken (show entryOf (addToken cfg p t) n key = some entry from h)
    rw [entryOf_record] at hrecord
    by_cases hgram : n ≤ p.history.length ∧ lastGram p.history n = key
    · rw [if_pos hgram] at hrecord
      obtain ⟨table, htable, rfl⟩ := Option.map_eq_some_iff.1 hrecord
      have hcount := get?_bumped table key t token
      simp only [countOf, Option.bind_some] at hcount ⊢
      rw [hcount, entryOf, htable]
      simp [Observes, hgram]
    · rw [if_neg hgram] at hrecord
      rw [hrecord]
      have hno : Observes n key token (p, .add t) = false := by
        simp only [Observes, decide_eq_false_iff_not]
        exact fun h => hgram ⟨h.1, h.2.1⟩
      simp [hno]

theorem entryOf_start (cfg : Config) (n : Nat) (key : List τ) : entryOf (start cfg) n key = none := by
  have hreset : reset (start cfg : Predictor τ) = start cfg := by simp [reset, start]
  rw [← hreset, entryOf_reset]

/-- The entry was created by a call, it was there ever since, and its counts are the observations from that call on. -/
def CountedSince (cfg : Config) (is : List (Op τ)) (n : Nat) (key : List τ) (entry : Entry τ) : Prop :=
  ∃ is₁ i is₂, is = is₁ ++ i :: is₂ ∧ entryOf (runList (next cfg) (start cfg) is₁) n key = none ∧
    (∀ x ∈ trace (next cfg) (next cfg (runList (next cfg) (start cfg) is₁) i) is₂, entryOf x.1 n key ≠ none) ∧
    ∀ token, countOf (some entry) token =
      ((trace (next cfg) (runList (next cfg) (start cfg) is₁) (i :: is₂)).filter (Observes n key token)).length

theorem countedSince (cfg : Config) (is : List (Op τ)) (n : Nat) (key : List τ) (entry : Entry τ)
    (h : entryOf (runList (next cfg) (start cfg) is) n key = some entry) : CountedSince cfg is n key entry := by
  induction is using List.reverseRecOn generalizing entry with
  | nil =>
    rw [runList, List.foldl_nil, entryOf_start] at h
    cases h
  | append_singleton is op ih =>
    rw [runList_concat] at h
    have hcount := count_next h
    cases hbefore : entryOf (runList (next cfg) (start cfg) is) n key with
    | none =>
      refine ⟨is, op, [], rfl, hbefore, by rintro _ ⟨⟩, fun token => ?_⟩
      rw [hcount token, hbefore]
      simp only [trace, List.filter_cons, List.filter_nil, countOf, Option.bind_none, Option.getD_none, Nat.zero_add]
      split <;> rfl
    | some before =>
      obtain ⟨is₁, i, is₂, rfl, hnone, hkept, hsum⟩ := ih before hbefore
      have hrun : runList (next cfg) (next cfg (runList (next cfg) (start cfg) is₁) i) is₂ =
          runList (next cfg) (start cfg) (is₁ ++ i :: is₂) := by
        simp [runList]
      refine ⟨is₁, i, is₂ ++ [op], by simp, hnone, ?_, fun token => ?_⟩
      · intro x hx
        rw [trace_concat, List.mem_append, List.mem_singleton] at hx
        rcases hx with hx | rfl
        · exact hkept x hx
        · rw [hrun, hbefore]
          exact Option.some_ne_none before
      · rw [hcount token, hbefore, hsum token, ← List.cons_append, trace_concat, List.filter_append, List.length_append]
        have hlast : runList (next cfg) (runList (next cfg) (start cfg) is₁) (i :: is₂) =
            runList (next cfg) (start cfg) (is₁ ++ i :: is₂) := hrun
        rw [hlast, List.filter_cons, List.filter_nil]
        split <;> rfl

/-- With a draft to make, the first one is the top prediction. -/
theorem predictTop1_eq_head {cfg : Config} (hdraft : 1 ≤ cfg.numDraft) (p : Predictor τ) (context : Option (List τ)) :
    predictTop1 cfg p context = (predict cfg p context).head? := by
  obtain ⟨k, hk⟩ : ∃ k, cfg.numDraft = k + 1 := ⟨cfg.numDraft - 1, by omega⟩
  unfold predictTop1 predict
  dsimp only
  split
  · rfl
  · rw [hk, draft]
    cases bestContinuation cfg p (context.getD p.history) <;> rfl

/-- In a run of sound calls, with at least one draft to make: the counter is the number of keys and within the
capacity, the counts are the observations since their entry was created, and the top prediction is the first draft. -/
theorem books_hold {cfg : Config} (hdraft : 1 ≤ cfg.numDraft) {is : List (Op τ)}
    (hsound : AllOk (Sound cfg) (next cfg) (start cfg) is) :
    Balanced cfg (runList (next cfg) (start cfg) is) ∧
      (∀ n key entry, entryOf (runList (next cfg) (start cfg) is) n key = some entry → CountedSince cfg is n key entry) ∧
      ∀ context, predictTop1 cfg (runList (next cfg) (start cfg) is) context =
        (predict cfg (runList (next cfg) (start cfg) is) context).head? := by
  have hstart : Reached (fun p : Predictor τ => p = start cfg) (Sound cfg) (next cfg) (start cfg) := .start rfl
  have hreached := hstart.runList hsound
  refine ⟨?_, countedSince cfg is, fun context => predictTop1_eq_head hdraft _ context⟩
  refine hreached.invariant ?_ ?_
  · rintro p rfl
    exact start_balanced cfg
  · intro p op _ hp hop
    exact next_balanced hp hop

/-- Two observations of one continuation raise the counter twice for one key. -/
theorem repeated_continuation_counted_twice :
    let cfg : Config := { order := 2, numDraft := 3, maxEntries := 10, minHits := 2 }
    let p : Predictor Nat := runList (next cfg) (start cfg) [.add 1, .add 1, .add 1, .add 1]
    p.totalEntries = 2 ∧ size p.tables = 1 := by
  decide

/-- An n-gram comes again with another continuation, and another one is evicted for the last token. -/
theorem books_of_seven_tokens :
    let cfg : Config := { order := 2, numDraft := 3, maxEntries := 3, minHits := 2 }
    let run : List (Op Nat) := [.add 1, .add 2, .add 3, .add 1, .add 2, .add 4, .add 5]
    (runList (next cfg) (start cfg) run).totalEntries = 3 ∧
      Balanced cfg (runList (next cfg) (start cfg) run) := by
  intro cfg run
  have hsound : AllOk (Sound cfg) (next cfg) (start cfg) run :=
    ⟨by decide, by decide, by decide, by decide, by decide, by decide, by decide, trivial⟩
  exact ⟨by decide, (books_hold (by decide) hsound).1⟩

end FusionMlx.NGramPredictor
