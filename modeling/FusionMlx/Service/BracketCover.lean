import FusionMlx.Service.BracketScan

/-!
# Every bracket is heard

By the recursion of the decoder: the scan over a value's text rises as high as
the value is deep, provided that it leaves every string literal where it ends.
-/
namespace FusionMlx.BodyDepth

open JsonText (Json)
open JsonBytes Scan

variable {P : Interpreter} {c q : Spelled} {t u r : List Spelled} {v : Json}

theorem skipWs_spec (t : List Spelled) :
    ∃ w, Part t w (skipWs t) ∧ ∀ c ∈ w, c.code < 128 ∧ Neutral c.code := by
  have hws : ∀ c ∈ t.takeWhile isWs, c.code < 128 ∧ Neutral c.code := by
    intro c hc
    have hc := List.mem_takeWhile_imp hc
    simp only [isWs, decide_eq_true_eq] at hc
    rcases hc with h | h | h | h <;> rw [h] <;> exact ⟨by decide, by decide, by decide, by decide, by decide, by decide⟩
  have hpart := Part.of_no_quote (fun c hc => (hws c hc).2.1) (t.dropWhile isWs)
  rw [List.takeWhile_append_dropWhile] at hpart
  exact ⟨_, hpart, hws⟩

/-- White space, with what the scan makes of it. -/
theorem skipWs_clean (t : List Spelled) (ht : ∀ c ∈ t, Plainly c) : ∃ w, Part t w (skipWs t) ∧ Clean w := by
  obtain ⟨w, hpart, hw⟩ := skipWs_spec t
  exact ⟨w, hpart, .of_neutral (fun c hc => ht c (hpart.eq ▸ List.mem_append_left _ hc)) hw⟩

theorem toChar_code (hc : JsonText.Plain (toChar c)) : c.code < 128 ∧ Neutral c.code := by
  rw [toChar] at hc
  split at hc
  · next hlt =>
    obtain ⟨h₁, h₂, h₃, h₄, h₅⟩ := hc
    refine ⟨hlt, ?_, ?_, ?_, ?_, ?_⟩ <;> intro h <;> rw [h] at h₁ h₂ h₃ h₄ h₅
    · exact h₁ rfl
    · exact h₂ rfl
    · exact h₃ rfl
    · exact h₄ rfl
    · exact h₅ rfl
  · exact absurd rfl hc.1

theorem scanScalar_spec (hs : scanScalar P t = .ok (v, r)) :
    ∃ u, t = u ++ r ∧ (∀ c ∈ u, c.code < 128 ∧ Neutral c.code) ∧ isContainer v = false := by
  have hcut : ∀ lit rest : JsonText.Text, t.map toChar = lit ++ rest → (∀ c ∈ lit, JsonText.Plain c) →
      ∀ c ∈ t.take lit.length, c.code < 128 ∧ Neutral c.code := by
    intro lit rest hmap hplain c hc
    refine toChar_code (hplain _ ?_)
    have htake := congrArg (List.take lit.length) hmap
    rw [List.take_left, ← List.map_take] at htake
    rw [← htake]
    exact List.mem_map_of_mem hc
  rw [scanScalar] at hs
  split at hs
  · next n hn =>
    obtain ⟨hmap, hplain⟩ := JsonText.scanNumber_spec hn
    split at hs
    · cases hs
    · cases hs
      exact ⟨_, (List.take_append_drop _ t).symm, hcut _ _ hmap hplain, rfl⟩
  · split at hs
    · next w hw =>
      cases hs
      have hmem := List.mem_of_find?_eq_some hw
      have hfound := List.find?_some (p := fun w : JsonText.Text × Json => w.1.isPrefixOf (t.map toChar)) hw
      obtain ⟨rest, hrest⟩ := List.isPrefixOf_iff_prefix.1 hfound
      have hall : ∀ w ∈ JsonText.words, (∀ c ∈ w.1, JsonText.Plain c) ∧ isContainer w.2 = false := by
        simp [JsonText.words, JsonText.Plain, isContainer]
      exact ⟨_, (List.take_append_drop _ t).symm, hcut _ _ hrest.symm (hall w hmem).1, (hall w hmem).2⟩
    · cases hs

theorem hex4_codes {a b d e : Spelled} {n : Nat} (h : hex4 a b d e = some n) :
    ∀ c ∈ [a, b, d, e], c.code ≠ 0x22 ∧ c.code ≠ 0x5C := by
  obtain ⟨m, hm, -⟩ := Option.map_eq_some_iff.1 h
  have hchars := JsonText.hex4_chars hm
  have hcode : ∀ c : Spelled, toChar c ≠ '\x22' ∧ toChar c ≠ '\\' → c.code ≠ 0x22 ∧ c.code ≠ 0x5C := by
    intro c hc
    constructor <;> intro heq <;> simp only [toChar, heq] at hc
    · exact hc.1 rfl
    · exact hc.2 rfl
  intro c hc
  refine hcode c (hchars _ ?_)
  have hmem := List.mem_map_of_mem (f := toChar) hc
  simpa using hmem

/-- The literal that the decoder reads is the one that the text has there. -/
theorem scanString_spec {s : List (Nat × Bool) × List Spelled} (hs : scanString t = some s) (read : List Spelled) :
    ∃ w q, t = w ++ q :: s.2 ∧ q.code = 0x22 ∧
      literals (some read) t = (read ++ w ++ [q]) :: literals none s.2 := by
  fun_induction scanString t generalizing s read with
  | case1 => cases hs
  | case2 c t hq =>
    cases hs
    exact ⟨[], c, rfl, hq, by rw [literals_quote hq, List.append_nil]⟩
  | case3 => cases hs
  | case4 => cases hs
  | case5 c hc _ hb x _ a b d e t n hn ih =>
    -- a `\u` escape: the text walk skips the letter, and its digits are no quotes
    obtain ⟨s', hs', rfl⟩ := Option.map_eq_some_iff.1 hs
    have hcodes := hex4_codes hn
    simp only [List.forall_mem_cons, List.not_mem_nil, false_implies, implies_true, and_true] at hcodes
    obtain ⟨⟨ha, ha'⟩, ⟨hb₁, hb'⟩, ⟨hd, hd'⟩, he, he'⟩ := hcodes
    obtain ⟨w, q, rfl, hq, hlit⟩ := ih hs' (read ++ [c, x, a, b, d, e])
    refine ⟨c :: x :: a :: b :: d :: e :: w, q, rfl, hq, ?_⟩
    rw [literals_escape hb, literals_char ha ha', literals_char hb₁ hb', literals_char hd hd', literals_char he he']
    simpa using hlit
  | case6 => cases hs
  | case7 => cases hs
  | case8 c hc _ hb x t _ n _ ih =>
    obtain ⟨s', hs', rfl⟩ := Option.map_eq_some_iff.1 hs
    obtain ⟨w, q, rfl, hq, hlit⟩ := ih hs' (read ++ [c, x])
    refine ⟨c :: x :: w, q, rfl, hq, ?_⟩
    rw [literals_escape hb]
    simpa using hlit
  | case9 => cases hs
  | case10 c t hc _ hb ih =>
    obtain ⟨s', hs', rfl⟩ := Option.map_eq_some_iff.1 hs
    obtain ⟨w, q, rfl, hq, hlit⟩ := ih hs' (read ++ [c])
    refine ⟨c :: w, q, rfl, hq, ?_⟩
    rw [literals_char hc hb]
    simpa using hlit

/-- A literal that the scan leaves where it ends. -/
theorem literal_clean {s : List (Nat × Bool) × List Spelled} (hc : c.code = 0x22) (hs : scanString t = some s)
    (hp : Plainly c) (hl : ∀ l ∈ literals none (c :: t), Left l) : ∃ u, Part (c :: t) u s.2 ∧ Clean u := by
  obtain ⟨w, q, rfl, -, hlit⟩ := scanString_spec hs []
  have hwhole : literals none (c :: (w ++ q :: s.2)) = (w ++ [q]) :: literals none s.2 := by
    rw [literals, if_pos hc, hlit, List.nil_append]
  refine ⟨c :: w ++ [q], ⟨by simp, fun l hmem => ?_⟩, fun d p => ⟨p, le_rfl, ?_⟩⟩
  · rw [hwhole]
    exact List.mem_cons_of_mem _ hmem
  · have hleft : Left (w ++ [q]) := hl _ (hwhole ▸ List.mem_cons_self)
    rw [List.cons_append, spell_cons, run_append, hp.run_quote hc]
    exact hleft d p

structure Scans (P : Interpreter) (n : Nat) : Prop where
  value : ∀ {k t v r}, scanValue P n k t = .ok (v, r) → (∀ c ∈ t, Plainly c) → (∀ l ∈ literals none t, Left l) →
    ∃ u, Part t u r ∧ Covers u v
  members : ∀ {k t ms r}, scanMembers P n k t = .ok (ms, r) → (∀ c ∈ t, Plainly c) →
    (∀ l ∈ literals none t, Left l) → ∃ u q, Part t (u ++ [q]) r ∧ q.code = 0x7D ∧ Clean u ∧
      ∀ m ∈ ms, ∀ d, Nests m.2 d → Rises u d
  items : ∀ {k t vs r}, scanItems P n k t = .ok (vs, r) → (∀ c ∈ t, Plainly c) →
    (∀ l ∈ literals none t, Left l) → ∃ u q, Part t (u ++ [q]) r ∧ q.code = 0x5D ∧ Clean u ∧
      ∀ v ∈ vs, ∀ d, Nests v d → Rises u d

/-- A container whose children rise inside its brackets is covered. -/
theorem Covers.container (hc : Plainly c) (ho : c.code = 0x7B ∨ c.code = 0x5B) (hq : Plainly q)
    (hcl : q.code = 0x7D ∨ q.code = 0x5D) (hu : Clean u)
    (hrise : ∀ w ∈ children v, ∀ d, Nests w d → Rises u d) : Covers (c :: u ++ [q]) v := by
  refine ⟨.bracket hc ho hq hcl hu, fun k hk => ?_⟩
  cases hk with
  | here _ => exact .zero hu [q] hc ho
  | child hw hd => exact .bracket hc ho (hrise _ hw _ hd) [q]

theorem Covers.scalar (hu : Clean u) (hv : isContainer v = false) : Covers u v :=
  ⟨hu, fun _ hk => absurd hk.isContainer (by simp [hv])⟩

theorem Part.mem_last (hp : Part t (u ++ [q]) r) : q ∈ t := by
  rw [hp.eq]
  simp

theorem Scans.value_succ {n k : Nat} (ih : Scans P n) (hs : scanValue P (n + 1) k t = .ok (v, r))
    (ht : ∀ c ∈ t, Plainly c) (hl : ∀ l ∈ literals none t, Left l) : ∃ u, Part t u r ∧ Covers u v := by
  cases t with
  | nil => cases hs
  | cons c t =>
    have hpc := ht c List.mem_cons_self
    rw [scanValue.eq_def] at hs
    dsimp only at hs
    split at hs
    · next hc =>
      split at hs
      · next s hstring =>
        cases hs
        obtain ⟨u, hpart, hclean⟩ := literal_clean hc hstring hpc hl
        exact ⟨u, hpart, .scalar hclean rfl⟩
      · cases hs
    · next hquote =>
      split at hs
      · next ho =>
        have hopen := Part.cons hquote t
        obtain ⟨w, hws, hclean⟩ := skipWs_clean t (hopen.plainly ht)
        have hpart := hopen.trans hws
        split at hs
        · cases hs
        · next k =>
          split at hs
          · cases hs
          · next x rest hx =>
            rw [hx] at hpart hws
            have hplain := hpart.plainly ht
            have hleft := hpart.left hl
            split at hs
            · next hbrace =>
              split at hs
              · next hclose =>
                cases hs
                have hend := hpart.trans (Part.cons (by omega) r)
                refine ⟨_, hend, ?_⟩
                exact .container hpc ho (hplain x List.mem_cons_self) (.inl hclose) hclean (fun _ hw => by cases hw)
              · cases hm : scanMembers P n k (x :: rest) with
                | error e =>
                  rw [hm] at hs
                  cases hs
                | ok s =>
                  rw [hm] at hs
                  cases hs
                  obtain ⟨u, q, hmembers, hq, hu, hrise⟩ := ih.members hm hplain hleft
                  have hend := hpart.trans hmembers
                  have hshape : [c] ++ w ++ (u ++ [q]) = c :: (w ++ u) ++ [q] := by simp
                  rw [hshape] at hend
                  refine ⟨_, hend, .container hpc ho (ht q hend.mem_last) (.inl hq) (hclean.append hu)
                    (fun v hv d hd => ?_)⟩
                  obtain ⟨m, hm, rfl⟩ := mem_children_obj hv
                  exact .append_right hclean (hrise m hm d hd)
            · split at hs
              · next hclose =>
                cases hs
                have hend := hpart.trans (Part.cons (by omega) r)
                refine ⟨_, hend, ?_⟩
                exact .container hpc ho (hplain x List.mem_cons_self) (.inr hclose) hclean (fun _ hw => by cases hw)
              · cases hm : scanItems P n k (x :: rest) with
                | error e =>
                  rw [hm] at hs
                  cases hs
                | ok s =>
                  rw [hm] at hs
                  cases hs
                  obtain ⟨u, q, hitems, hq, hu, hrise⟩ := ih.items hm hplain hleft
                  have hend := hpart.trans hitems
                  have hshape : [c] ++ w ++ (u ++ [q]) = c :: (w ++ u) ++ [q] := by simp
                  rw [hshape] at hend
                  exact ⟨_, hend, .container hpc ho (ht q hend.mem_last) (.inr hq) (hclean.append hu)
                    (fun v hv d hd => .append_right hclean (hrise v hv d hd))⟩
      · obtain ⟨u, heq, hu, hv⟩ := scanScalar_spec hs
        have hpart := Part.of_no_quote (fun c hc => (hu c hc).2.1) r
        rw [← heq] at hpart
        exact ⟨u, hpart, .scalar (.of_neutral (fun c hc => ht c (heq ▸ List.mem_append_left r hc)) hu) hv⟩

theorem Clean.token (hc : Plainly c) (hlt : c.code < 128) (hn : Neutral c.code) : Clean [c] :=
  .of_neutral (by simpa using hc) (by simpa using ⟨hlt, hn⟩)

theorem Scans.items_succ {n k : Nat} {vs : List Json} (ih : Scans P n) (hs : scanItems P (n + 1) k t = .ok (vs, r))
    (ht : ∀ c ∈ t, Plainly c) (hl : ∀ l ∈ literals none t, Left l) :
    ∃ u q, Part t (u ++ [q]) r ∧ q.code = 0x5D ∧ Clean u ∧ ∀ v ∈ vs, ∀ d, Nests v d → Rises u d := by
  rw [scanItems] at hs
  split at hs
  · cases hs
  · next v t₁ hvalue =>
    obtain ⟨u, hpart, hcover⟩ := ih.value hvalue ht hl
    obtain ⟨w, hws, hclean⟩ := skipWs_clean t₁ (hpart.plainly ht)
    have hfirst := hpart.trans hws
    split at hs
    · cases hs
    · next y rest hy =>
      rw [hy] at hfirst
      split at hs
      · next hclose =>
        cases hs
        refine ⟨u ++ w, y, hfirst.trans (Part.cons (by omega) r), hclose, hcover.clean.append hclean, fun v' hv' d hd => ?_⟩
        rw [List.mem_singleton.1 hv'] at hd
        exact .append_left (hcover.rises d hd) w
      · split at hs
        · next hcomma =>
          cases hm : scanItems P n k (skipWs rest) with
          | error e =>
            rw [hm] at hs
            cases hs
          | ok s =>
            rw [hm] at hs
            cases hs
            have hy' : Plainly y := hfirst.plainly ht y List.mem_cons_self
            have hsep := hfirst.trans (Part.cons (by omega) rest)
            obtain ⟨w', hws', hclean'⟩ := skipWs_clean rest (hsep.plainly ht)
            have hnext := hsep.trans hws'
            obtain ⟨u', q, hitems, hq, hu, hrise⟩ := ih.items hm (hnext.plainly ht) (hnext.left hl)
            have hcommaClean : Clean [y] := .token hy' (by omega) (by simp [hcomma, Neutral])
            have hlead : Clean (u ++ w ++ [y] ++ w') :=
              ((hcover.clean.append hclean).append hcommaClean).append hclean'
            have hall := hnext.trans hitems
            rw [← List.append_assoc] at hall
            refine ⟨u ++ w ++ [y] ++ w' ++ u', q, hall, hq, hlead.append hu, fun v' hv' d hd => ?_⟩
            rcases List.mem_cons.1 hv' with rfl | hv'
            · simpa only [List.append_assoc] using Rises.append_left (hcover.rises d hd) (w ++ ([y] ++ (w' ++ u')))
            · exact .append_right hlead (hrise v' hv' d hd)
        · cases hs

theorem Scans.members_succ {n k : Nat} {ms : List (List Nat × Json)} (ih : Scans P n)
    (hs : scanMembers P (n + 1) k t = .ok (ms, r)) (ht : ∀ c ∈ t, Plainly c) (hl : ∀ l ∈ literals none t, Left l) :
    ∃ u q, Part t (u ++ [q]) r ∧ q.code = 0x7D ∧ Clean u ∧ ∀ m ∈ ms, ∀ d, Nests m.2 d → Rises u d := by
  cases t with
  | nil => cases hs
  | cons c t =>
    rw [scanMembers] at hs
    split at hs
    · cases hs
    · next hquote =>
      have hquote := not_not.1 hquote
      split at hs
      · cases hs
      · next key t₁ hstring =>
        obtain ⟨u₁, hkey, hclean₁⟩ := literal_clean hquote hstring (ht c List.mem_cons_self) hl
        obtain ⟨w₁, hws₁, hclean₂⟩ := skipWs_clean t₁ (hkey.plainly ht)
        have hpart₁ := hkey.trans hws₁
        split at hs
        · cases hs
        · next x t₂ hx =>
          rw [hx] at hpart₁
          split at hs
          · cases hs
          · next hcolon =>
            have hcolon := not_not.1 hcolon
            have hx' : Plainly x := hpart₁.plainly ht x List.mem_cons_self
            have hpart₂ := hpart₁.trans (Part.cons (by omega) t₂)
            obtain ⟨w₂, hws₂, hclean₃⟩ := skipWs_clean t₂ (hpart₂.plainly ht)
            have hpart₃ := hpart₂.trans hws₂
            have hcolonClean : Clean [x] := .token hx' (by omega) (by simp [hcolon, Neutral])
            have hname : Clean (u₁ ++ w₁ ++ [x] ++ w₂) := ((hclean₁.append hclean₂).append hcolonClean).append hclean₃
            split at hs
            · cases hs
            · next v t₃ hvalue =>
              obtain ⟨u, hpart, hcover⟩ := ih.value hvalue (hpart₃.plainly ht) (hpart₃.left hl)
              have hpart₄ := hpart₃.trans hpart
              obtain ⟨w, hws, hclean⟩ := skipWs_clean t₃ (hpart₄.plainly ht)
              have hfirst := hpart₄.trans hws
              have hmember : Clean (u₁ ++ w₁ ++ [x] ++ w₂ ++ u ++ w) := (hname.append hcover.clean).append hclean
              have hrise₁ : ∀ d, Nests v d → Rises (u₁ ++ w₁ ++ [x] ++ w₂ ++ u ++ w) d :=
                fun d hd => .append_left (.append_right hname (hcover.rises d hd)) w
              split at hs
              · cases hs
              · next y rest hy =>
                rw [hy] at hfirst
                split at hs
                · next hclose =>
                  cases hs
                  refine ⟨_, y, hfirst.trans (Part.cons (by omega) r), hclose, hmember, fun m hm d hd => ?_⟩
                  rw [List.mem_singleton.1 hm] at hd
                  exact hrise₁ d hd
                · split at hs
                  · next hcomma =>
                    cases hm : scanMembers P n k (skipWs rest) with
                    | error e =>
                      rw [hm] at hs
                      cases hs
                    | ok s =>
                      rw [hm] at hs
                      cases hs
                      have hy' : Plainly y := hfirst.plainly ht y List.mem_cons_self
                      have hsep := hfirst.trans (Part.cons (by omega) rest)
                      obtain ⟨w', hws', hclean'⟩ := skipWs_clean rest (hsep.plainly ht)
                      have hnext := hsep.trans hws'
                      obtain ⟨u', q, hmembers, hq, hu, hrise⟩ := ih.members hm (hnext.plainly ht) (hnext.left hl)
                      have hcommaClean : Clean [y] := .token hy' (by omega) (by simp [hcomma, Neutral])
                      have hlead := (hmember.append hcommaClean).append hclean'
                      have hall := hnext.trans hmembers
                      rw [← List.append_assoc] at hall
                      refine ⟨_, q, hall, hq, hlead.append hu, fun m hm d hd => ?_⟩
                      rcases List.mem_cons.1 hm with rfl | hm
                      · exact .append_left (.append_left (.append_left (hrise₁ d hd) [y]) w') u'
                      · exact .append_right hlead (hrise m hm d hd)
                  · cases hs

theorem scans (P : Interpreter) (n : Nat) : Scans P n := by
  induction n with
  | zero => constructor <;> intro _ _ _ _ hs <;> cases hs
  | succ n ih => exact ⟨ih.value_succ, ih.members_succ, ih.items_succ⟩

/-- The scan over a document comes as high as its value is deep. -/
theorem loadsText_covers (hload : loadsText P t = .ok v) (ht : ∀ c ∈ t, Plainly c)
    (hl : ∀ l ∈ literals none t, Left l) {d : Nat} (hd : Nests v d) : (d : Int) ≤ ((outside 0 0).run (spell t)).peak := by
  rw [loadsText] at hload
  split at hload
  · next v' rest hvalue =>
    split at hload
    · cases hload
      obtain ⟨w, hws, hclean⟩ := skipWs_clean t ht
      obtain ⟨u, hpart, hcover⟩ := (scans P _).value hvalue (hws.plainly ht) (hws.left hl)
      rw [(hws.trans hpart).eq, spell_append, run_append]
      have hrise := (Rises.append_right hclean (hcover.rises d hd)) 0 0
      rw [Int.zero_add] at hrise
      exact hrise.trans (peak_run _ _)
    · cases hload
  · cases hload

end FusionMlx.BodyDepth
