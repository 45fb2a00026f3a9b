import FusionMlx.Support.Histories
import FusionMlx.Support.OrderedDict

/-!
# The n-gram predictor

For every order a table of continuation counts. A token is counted behind the
n-gram in front of it; when the entry counter passes the capacity, n-grams that
were seen once are taken out.
-/
namespace FusionMlx.NGramPredictor

open OrderedDict

variable {τ : Type} [DecidableEq τ]

abbrev Entry (τ : Type) := Dict τ Nat

abbrev Table (τ : Type) := Dict (List τ) (Entry τ)

structure Config where
  order : Nat
  numDraft : Nat
  maxEntries : Nat
  minHits : Nat

structure Predictor (τ : Type) where
  tables : List (Nat × Table τ)
  history : List τ
  totalEntries : Int

def start (cfg : Config) : Predictor τ :=
  { tables := (List.range' 2 (cfg.order - 1)).map (fun n => (n, Dict.empty)), history := [], totalEntries := 0 }

def reset (p : Predictor τ) : Predictor τ :=
  { tables := p.tables.map (fun t => (t.1, Dict.empty)), history := [], totalEntries := 0 }

section AddToken

def lastGram (history : List τ) (n : Nat) : List τ := history.drop (history.length - n)

def bump (entry : Entry τ) (token : τ) : Entry τ := entry.set token ((entry.get? token).getD 0 + 1)

def bumped (table : Table τ) (key : List τ) (token : τ) : Entry τ := bump ((table.get? key).getD Dict.empty) token

def observe (history : List τ) (token : τ) (n : Nat) (table : Table τ) : Table τ × Bool :=
  if n ≤ history.length then
    let key := lastGram history n
    (table.set key (bumped table key token), (bumped table key token).entries.length == 1)
  else (table, false)

def keysToRemove (table : Table τ) : List (List τ) :=
  (table.entries.filter (fun e => e.2.total id ≤ 1)).map Prod.fst

def removeKeys (target : Nat) : List (List τ) → Nat → Table τ → Table τ × Nat
  | [], removed, table => (table, removed)
  | key :: keys, removed, table =>
    if target ≤ removed + 1 then (table.erase key, removed + 1)
    else removeKeys target keys (removed + 1) (table.erase key)

def evictTables (target : Nat) : List (Nat × Table τ) → Nat → List (Nat × Table τ) × Nat
  | [], removed => ([], removed)
  | (n, table) :: rest, removed =>
    let (table, removed) := removeKeys target (keysToRemove table) removed table
    if target ≤ removed then ((n, table) :: rest, removed)
    else
      let (rest, removed) := evictTables target rest removed
      ((n, table) :: rest, removed)

variable (cfg : Config)

def evict (p : Predictor τ) : Predictor τ :=
  let (tables, removed) := evictTables (cfg.maxEntries / 2) p.tables 0
  { p with tables := tables, totalEntries := p.totalEntries - removed }

def record (p : Predictor τ) (token : τ) : Predictor τ :=
  let seen := p.tables.map (fun t => (t.1, observe p.history token t.1 t.2))
  { tables := seen.map (fun t => (t.1, t.2.1)), history := p.history ++ [token],
    totalEntries := p.totalEntries + (seen.filter (fun t => t.2.2)).length }

def addToken (p : Predictor τ) (token : τ) : Predictor τ :=
  let p := record p token
  if (cfg.maxEntries : Int) < p.totalEntries then evict cfg p else p

def addTokens (p : Predictor τ) (tokens : List τ) : Predictor τ := tokens.foldl (addToken cfg) p

end AddToken

section Predict

def mostFrequent (entry : Entry τ) (best : Option τ × Nat) : Option τ × Nat :=
  entry.entries.foldl (fun best e => if best.2 < e.2 then (some e.1, e.2) else best) best

def tableOf (p : Predictor τ) (n : Nat) : Option (Table τ) := (p.tables.find? (fun t => t.1 = n)).map Prod.snd

def search (cfg : Config) (p : Predictor τ) (context : List τ) : Nat → Option τ × Nat → Option τ × Nat
  | 0, best => best
  | n + 1, best =>
    if n + 1 < 2 then best
    else
      match (tableOf p (n + 1)).bind (fun table => table.get? (lastGram context (n + 1))) with
      | none => search cfg p context n best
      | some entry =>
        let best := mostFrequent entry best
        if cfg.minHits ≤ best.2 then best else search cfg p context n best

def bestContinuation (cfg : Config) (p : Predictor τ) (context : List τ) : Option τ :=
  let best := search cfg p context (min cfg.order context.length) (none, 0)
  match best.1 with
  | none => none
  | some token => if best.2 < cfg.minHits then none else some token

def draft (cfg : Config) (p : Predictor τ) : Nat → List τ → List τ
  | 0, _ => []
  | k + 1, extended =>
    match bestContinuation cfg p extended with
    | none => []
    | some token => token :: draft cfg p k (extended ++ [token])

def predict (cfg : Config) (p : Predictor τ) (context : Option (List τ)) : List τ :=
  let context := context.getD p.history
  if context.length < 2 then [] else draft cfg p cfg.numDraft context

def predictTop1 (cfg : Config) (p : Predictor τ) (context : Option (List τ)) : Option τ :=
  let context := context.getD p.history
  if context.length < 2 then none else bestContinuation cfg p context

end Predict

end FusionMlx.NGramPredictor
