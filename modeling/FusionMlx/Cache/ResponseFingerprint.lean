import FusionMlx.Support.CompactJson

/-!
# The key of a cached response

The key hashes the fields of a request joined by `|`. Model and grammar go in as
they are, the others as JSON texts and numbers, and further keyword arguments do
not go in at all.
-/
namespace FusionMlx.ResponseFingerprint

open JsonText (Text)
open CompactJson

abbrev PyString := List CodePoint

structure Setting extends Number where
  inRange : text ≠ ['-', '1']

structure Call where
  model : Text
  messages : List (Value PyString)
  temperature : Option Setting
  topP : Option Setting
  maxTokens : Option Setting
  stop : Option (List PyString)
  tools : Option (List (Value PyString))
  responseFormat : Option (List (PyString × Value PyString))
  seed : Option Setting
  grammar : Option Text
  adapters : Option Text
  extra : List (PyString × Value PyString)

/-- `str(x) if x is not None else "-1"` -/
def settingText : Option Setting → Text
  | none => ['-', '1']
  | some s => s.text

def stopValue (stop : Option (List PyString)) : Value PyString := .arr ((stop.getD []).map .str)

def toolsValue (tools : Option (List (Value PyString))) : Value PyString := .arr (tools.getD [])

def formatValue (format : Option (List (PyString × Value PyString))) : Value PyString := .obj (format.getD [])

section Fingerprint

variable (adapterPathSignature : Text → Text) (c : Call)

def adapterPart : Text :=
  match c.adapters with
  | none | some [] => []
  | some path => adapterPathSignature path

def parts : List Text :=
  [c.model, adapterPart adapterPathSignature c, dumps (.arr c.messages), settingText c.temperature, settingText c.topP,
    settingText c.maxTokens, dumps (stopValue c.stop), dumps (toolsValue c.tools), dumps (formatValue c.responseFormat),
    settingText c.seed, c.grammar.getD []]

def blob : Text := List.intercalate ['|'] (parts adapterPathSignature c)

def fingerprint {κ : Type} (sha256 : Text → κ) : κ := sha256 (blob adapterPathSignature c)

def rest : Text := List.intercalate ['|'] (parts adapterPathSignature c).tail

end Fingerprint

/-- The fields that are hashed agree, a missing list or object with an empty one, and a missing grammar with an empty
one. -/
structure SameHashed (c d : Call) : Prop where
  model : c.model = d.model
  messages : json (.arr c.messages) = json (.arr d.messages)
  temperature : c.temperature = d.temperature
  topP : c.topP = d.topP
  maxTokens : c.maxTokens = d.maxTokens
  stop : json (stopValue c.stop) = json (stopValue d.stop)
  tools : json (toolsValue c.tools) = json (toolsValue d.tools)
  responseFormat : json (formatValue c.responseFormat) = json (formatValue d.responseFormat)
  seed : c.seed = d.seed
  grammar : c.grammar.getD [] = d.grammar.getD []

/-- The two calls are the same request. -/
structure SameCall (c d : Call) : Prop extends SameHashed c d where
  grammar_eq : c.grammar = d.grammar
  extra : json (.obj c.extra) = json (.obj d.extra)

/-- The model of the second call is the model of the first, a separator, and text in which the later fields of the
first begin, up to the later fields of the second. -/
def ReadsOn (sign : Text → Text) (c d : Call) : Prop :=
  ∃ x, d.model = c.model ++ '|' :: x ∧ rest sign c = x ++ '|' :: rest sign d

variable {sign : Text → Text} {c d : Call}

theorem blob_eq (sign : Text → Text) (c : Call) : blob sign c = c.model ++ '|' :: rest sign c := rfl

theorem stops_bar (r : Text) : Stops ('|' :: r) := stops_cons (by decide) r

def minusOne : Number where
  text := ['-', '1']
  chars := by
    have hall : ['-', '1'].all (fun c => numberChars.contains c) = true := by decide
    exact fun c hc => List.contains_iff_mem.1 (List.all_eq_true.1 hall c hc)
  head := ⟨_, _, rfl, by decide⟩

theorem Setting.ext {s s' : Setting} (h : s.toNumber = s'.toNumber) : s = s' := by
  cases s
  cases s'
  cases h
  rfl

/-- A setting ends at the separator, and a missing one is told from every other. -/
theorem settingText_append_inj {s s' : Option Setting} {r r' : Text}
    (h : settingText s ++ '|' :: r = settingText s' ++ '|' :: r') : s = s' ∧ r = r' := by
  have hsplit : ∀ {m n : Number}, m.text ++ '|' :: r = n.text ++ '|' :: r' → m = n ∧ r = r' := by
    intro m n h
    obtain ⟨hnum, hrest⟩ := Number.append_inj (stops_bar r) (stops_bar r') h
    exact ⟨hnum, (List.cons.inj hrest).2⟩
  cases s with
  | none =>
    cases s' with
    | none => exact ⟨rfl, (hsplit (show minusOne.text ++ _ = minusOne.text ++ _ from h)).2⟩
    | some s' =>
      obtain ⟨hnum, -⟩ := hsplit (show minusOne.text ++ _ = s'.text ++ _ from h)
      exact absurd (congrArg Number.text hnum).symm s'.inRange
  | some s =>
    cases s' with
    | none =>
      obtain ⟨hnum, -⟩ := hsplit (show s.text ++ _ = minusOne.text ++ _ from h)
      exact absurd (congrArg Number.text hnum) s.inRange
    | some s' =>
      obtain ⟨hnum, hrest⟩ := hsplit (show s.text ++ _ = s'.text ++ _ from h)
      exact ⟨congrArg some (Setting.ext hnum), hrest⟩

theorem dumps_bar_inj {v w : Value PyString} {r r' : Text} (h : dumps v ++ '|' :: r = dumps w ++ '|' :: r') :
    json v = json w ∧ r = r' := by
  obtain ⟨hv, hrest⟩ := dumps_append_inj (stops_bar r) (stops_bar r') h
  exact ⟨hv, (List.cons.inj hrest).2⟩

/-- Behind the model the fields are read off one after another. -/
theorem sameHashed_of_rest (hmodel : c.model = d.model) (hadapters : c.adapters = d.adapters)
    (h : rest sign c = rest sign d) : SameHashed c d := by
  have hsign : adapterPart sign c = adapterPart sign d := by
    rw [adapterPart, adapterPart, hadapters]
  simp only [rest, parts, List.tail_cons, List.intercalate, List.intersperse, List.flatten_cons, List.singleton_append,
    hsign] at h
  have h := (List.cons.inj (List.append_cancel_left h)).2
  obtain ⟨hmessages, h⟩ := dumps_bar_inj h
  obtain ⟨htemperature, h⟩ := settingText_append_inj h
  obtain ⟨htopP, h⟩ := settingText_append_inj h
  obtain ⟨hmaxTokens, h⟩ := settingText_append_inj h
  obtain ⟨hstop, h⟩ := dumps_bar_inj h
  obtain ⟨htools, h⟩ := dumps_bar_inj h
  obtain ⟨hformat, h⟩ := dumps_bar_inj h
  obtain ⟨hseed, h⟩ := settingText_append_inj h
  have hgrammar : c.grammar.getD [] = d.grammar.getD [] := by simpa using h
  exact ⟨hmodel, hmessages, htemperature, htopP, hmaxTokens, hstop, htools, hformat, hseed, hgrammar⟩

theorem blob_of_sameHashed (h : SameHashed c d) (hadapters : c.adapters = d.adapters) : blob sign c = blob sign d := by
  have hsign : adapterPart sign c = adapterPart sign d := by
    rw [adapterPart, adapterPart, hadapters]
  simp only [blob, parts, hsign, h.model, h.temperature, h.topP, h.maxTokens, h.seed, h.grammar, dumps, h.messages, h.stop,
    h.tools, h.responseFormat]

/-- Equal blobs: the same fields, or one model reads on into the later fields of the other call. -/
theorem blob_cases (hadapters : c.adapters = d.adapters) (h : blob sign c = blob sign d) :
    SameHashed c d ∨ ReadsOn sign c d ∨ ReadsOn sign d c := by
  rw [blob_eq, blob_eq] at h
  rcases List.append_eq_append_iff.1 h with ⟨x, hmodel, hrest⟩ | ⟨x, hmodel, hrest⟩
  · cases x with
    | nil => exact .inl (sameHashed_of_rest (by simpa using hmodel.symm) hadapters (List.cons.inj hrest).2)
    | cons b x =>
      have hbar := (List.cons.inj hrest).1
      subst hbar
      exact .inr (.inl ⟨x, hmodel, (List.cons.inj hrest).2⟩)
  · cases x with
    | nil => exact .inl (sameHashed_of_rest (by simpa using hmodel) hadapters (List.cons.inj hrest).2.symm)
    | cons b x =>
      have hbar := (List.cons.inj hrest).1
      subst hbar
      exact .inr (.inr ⟨x, hmodel, (List.cons.inj hrest).2⟩)

theorem ReadsOn.blob_eq (h : ReadsOn sign c d) : blob sign c = blob sign d := by
  obtain ⟨x, hmodel, hrest⟩ := h
  rw [ResponseFingerprint.blob_eq, ResponseFingerprint.blob_eq, hmodel, hrest, List.append_assoc, List.cons_append]

theorem ReadsOn.model_ne (h : ReadsOn sign c d) : c.model ≠ d.model := by
  obtain ⟨x, hmodel, -⟩ := h
  intro heq
  have hlen := congrArg List.length hmodel
  rw [heq, List.length_append, List.length_cons] at hlen
  omega

/-- Equal keys mean the same request exactly when no further keyword and no missing grammar makes a difference
between calls that agree otherwise, and neither model reads on into the other call. -/
theorem fingerprint_separates_iff {κ : Type} {sha256 : Text → κ} (hsha : Function.Injective sha256)
    (hadapters : c.adapters = d.adapters) :
    (fingerprint sign c sha256 = fingerprint sign d sha256 → SameCall c d) ↔
      (SameHashed c d → c.grammar = d.grammar ∧ json (.obj c.extra) = json (.obj d.extra)) ∧
        ¬ ReadsOn sign c d ∧ ¬ ReadsOn sign d c := by
  constructor
  · intro hseparates
    refine ⟨fun hsame => ?_, fun hreads => ?_, fun hreads => ?_⟩
    · have hcall := hseparates (congrArg sha256 (blob_of_sameHashed hsame hadapters))
      exact ⟨hcall.grammar_eq, hcall.extra⟩
    · exact hreads.model_ne (hseparates (congrArg sha256 hreads.blob_eq)).model
    · exact hreads.model_ne (hseparates (congrArg sha256 hreads.blob_eq.symm)).model.symm
  · rintro ⟨hsame, hcd, hdc⟩ hkey
    rcases blob_cases hadapters (hsha hkey) with hhashed | hreads | hreads
    · obtain ⟨hgrammar, hextra⟩ := hsame hhashed
      exact { hhashed with grammar_eq := hgrammar, extra := hextra }
    · exact absurd hreads hcd
    · exact absurd hreads hdc

/-- Models without the separator do not read on. -/
theorem not_readsOn (hd : '|' ∉ d.model) : ¬ ReadsOn sign c d := by
  rintro ⟨x, hmodel, -⟩
  exact hd (by rw [hmodel]; simp)

def plainCall (model : Text) : Call where
  model := model
  messages := []
  temperature := none
  topP := none
  maxTokens := none
  stop := none
  tools := none
  responseFormat := none
  seed := none
  grammar := none
  adapters := none
  extra := []

def toolCall : Call :=
  { plainCall ['m'] with
    messages := [.arr [.str [], .bool true]]
    tools := some [.obj [([], .str [])]]
    grammar := some ['g']
    adapters := some ['a', '|', 'b'] }

/-- A missing list of stops counts as an empty one. -/
theorem missing_stop_is_empty : SameCall toolCall { toolCall with stop := some [] } := by
  have hbar : '|' ∉ toolCall.model := by decide
  have hiff := @fingerprint_separates_iff (fun path => path) toolCall { toolCall with stop := some [] }
    Text id Function.injective_id rfl
  exact hiff.2 ⟨fun _ => ⟨rfl, rfl⟩, not_readsOn hbar, not_readsOn hbar⟩ rfl

/-- Two calls that differ in a further keyword have one key. -/
theorem extra_keyword_collides :
    fingerprint (fun path => path) { plainCall ['m'] with extra := [([110], .bool true)] } id =
        fingerprint (fun path => path) { plainCall ['m'] with extra := [([110], .bool false)] } id ∧
      ¬ SameCall { plainCall ['m'] with extra := [([110], .bool true)] }
        { plainCall ['m'] with extra := [([110], .bool false)] } := by
  refine ⟨rfl, fun h => ?_⟩
  have hextra := h.extra
  simp [json, canon, canonMembers] at hextra

end FusionMlx.ResponseFingerprint
