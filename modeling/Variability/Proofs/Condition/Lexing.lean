import Mathlib.Data.List.TakeWhile
import Variability.Proofs.Condition.Grammar

set_option autoImplicit false

namespace Variability.Condition

def goesOn (c : Char) : Bool := c = '&' || c = '|' || c = '<' || c = '>' || c = '='

theorem not_goesOn_of_isWordChar {c : Char} (h : isWordChar c) : goesOn c = false := by
  cases hc : goesOn c with
  | false => rfl
  | true =>
    simp only [goesOn, Bool.or_eq_true, decide_eq_true_eq] at hc
    rcases hc with (((rfl | rfl) | rfl) | rfl) | rfl <;> revert h <;> decide

theorem not_goesOn_of_opens {c : Char} (h : opens c) : goesOn c = false := by
  simp only [opens, Bool.or_eq_true, decide_eq_true_eq] at h
  rcases h with ((h | rfl) | rfl) | rfl
  · exact not_goesOn_of_isWordChar h
  all_goals decide

theorem isGap_cases {c : Char} (h : isGap c) : c = ' ' ∨ c = '\t' ∨ c = '\n' ∨ c = '\r' := by
  simpa [isGap] using h

theorem not_isGap_of_isWordChar {c : Char} (h : isWordChar c) : isGap c = false := by
  cases hc : isGap c with
  | false => rfl
  | true => rcases isGap_cases hc with rfl | rfl | rfl | rfl <;> revert h <;> decide

theorem not_isWordChar_of_isGap {c : Char} (h : isGap c) : isWordChar c = false := by
  rcases isGap_cases h with rfl | rfl | rfl | rfl <;> decide

theorem not_goesOn_of_isGap {c : Char} (h : isGap c) : goesOn c = false := by
  rcases isGap_cases h with rfl | rfl | rfl | rfl <;> decide

theorem head_gap_append {p : Char → Bool} {gap rest : List Char} (hgap : Gap gap)
    (hp : ∀ c, isGap c → p c = false) (hrest : gap = [] → ∀ c ∈ rest.head?, p c = false) :
    ∀ c ∈ (gap ++ rest).head?, p c = false := by
  cases gap with
  | nil => exact hrest rfl
  | cons d gap =>
    intro c hc
    obtain rfl := Option.some.inj hc
    exact hp _ (hgap _ List.mem_cons_self)

theorem symbols_all_head :
    ∀ s ∈ symbols, s.1.head?.all fun c => !isWordChar c && c ≠ '\'' && !isGap c := by
  decide

theorem symbols_head {s : List Char × Token} (hs : s ∈ symbols) {c : Char}
    (hc : c ∈ s.1.head?) : isWordChar c = false ∧ c ≠ '\'' ∧ isGap c = false := by
  have hall := symbols_all_head s hs
  rw [Option.mem_def.1 hc] at hall
  simpa [and_assoc] using hall

theorem readSymbol_eq_none {c : Char} (h : isWordChar c ∨ c = '\'') (cs : List Char) :
    readSymbol (c :: cs) = none := by
  refine List.findSome?_eq_none_iff.2 fun s hs => if_neg fun hp => ?_
  obtain ⟨rest, hrest⟩ := List.isPrefixOf_iff_prefix.1 hp
  cases hspelling : s.1 with
  | nil => exact symbols_ne_nil s hs hspelling
  | cons d ds =>
    have hhead := symbols_head hs (by rw [hspelling]; rfl : d ∈ s.1.head?)
    rw [hspelling, List.cons_append, List.cons.injEq] at hrest
    obtain ⟨rfl, _⟩ := hrest
    rcases h with h | h
    · simp [hhead.1] at h
    · exact hhead.2.1 h

theorem readSymbol_append {symbol : List Char} {t : Token} (h : (symbol, t) ∈ symbols)
    {rest : List Char} (hrest : ∀ c ∈ rest.head?, goesOn c = false) :
    readSymbol (symbol ++ rest) = some (t, rest) := by
  cases rest with
  | nil =>
    have hall : ∀ s ∈ symbols, readSymbol (s.1 ++ []) = some (s.2, []) := by decide
    exact hall _ h
  | cons c rest =>
    have hc := hrest c rfl
    simp only [goesOn, Bool.or_eq_false_iff, decide_eq_false_iff_not] at hc
    have hall : ∀ s ∈ symbols, readSymbol (s.1 ++ c :: rest) = some (s.2, c :: rest) := by
      simp [readSymbol, symbols, hc, Ne.symm]
    exact hall _ h

theorem exists_of_readSymbol {cs rest : List Char} {t : Token} (h : readSymbol cs = some (t, rest)) :
    ∃ symbol, (symbol, t) ∈ symbols ∧ cs = symbol ++ rest := by
  obtain ⟨⟨symbol, u⟩, hmem, hs⟩ := List.exists_of_findSome?_eq_some h
  dsimp only at hs
  split at hs
  · next hp =>
    obtain ⟨rfl, rfl⟩ := Prod.mk.inj (Option.some.inj hs)
    obtain ⟨rest, rfl⟩ := List.isPrefixOf_iff_prefix.1 hp
    exact ⟨symbol, hmem, by simp⟩
  · cases hs

/-- An escape does not look past the closing quote. -/
theorem readEscape_append {cs : List Char} (hne : cs ≠ []) (rest : List Char) :
    readEscape (cs ++ '\'' :: rest) =
      (readEscape cs).map fun (c, left) => (c, left ++ '\'' :: rest) := by
  have hquote : isHexDigit '\'' = false := by decide
  fun_cases readEscape cs with
  | case1 => exact absurd rfl hne
  | case2 cs => cases cs <;> simp [readEscape]
  | case3 d cs => by_cases hd : isHexDigit d <;> simp [readEscape, hd]
  | case4 d cs => by_cases hd : isHexDigit d <;> simp [readEscape, hd]
  | case5 => simp [readEscape]
  | case6 c cs hzero hx hu hfeed =>
    rcases cs with _ | ⟨d, _ | ⟨e, cs⟩⟩
    · -- the quote stands where an escape with a number has its first digit
      simp only [readEscape, List.cons_append, List.nil_append]
      split <;> simp_all [unescape]
      · next h => rw [← h.2.1, hquote]; rfl
      · next h => rw [← h.2.1, hquote]; rfl
    · simp_all [readEscape]
    · simp only [readEscape, List.cons_append]
      split <;> simp_all

theorem suffix_of_readEscape {cs rest : List Char} {c : Char} (h : readEscape cs = some (c, rest)) :
    ∃ spelling, spelling ≠ [] ∧ cs = spelling ++ rest := by
  unfold readEscape at h
  split at h
  · cases h
  · obtain ⟨_, rfl⟩ := Prod.mk.inj (Option.some.inj h)
    exact ⟨['0'], by simp, rfl⟩
  · next d cs =>
    split at h <;> obtain ⟨_, rfl⟩ := Prod.mk.inj (Option.some.inj h)
    · exact ⟨['x', d, '2'], by simp, rfl⟩
    · exact ⟨['x'], by simp, rfl⟩
  · next d cs =>
    split at h <;> obtain ⟨_, rfl⟩ := Prod.mk.inj (Option.some.inj h)
    · exact ⟨['u', d, '4'], by simp, rfl⟩
    · exact ⟨['u'], by simp, rfl⟩
  · next c cs _ _ _ =>
    split at h
    · cases h
    · obtain ⟨_, rfl⟩ := Prod.mk.inj (Option.some.inj h)
      exact ⟨[c], by simp, rfl⟩

theorem readQuoted_of_quoted {body text : List Char} (h : Quoted body text) (rest : List Char) :
    readQuoted (body ++ '\'' :: rest) = some (text, rest) := by
  induction h with
  | nil => rw [List.nil_append, readQuoted]
  | @plain c cs text hc _ ih =>
    simp only [List.mem_cons, List.not_mem_nil, or_false, not_or] at hc
    obtain ⟨hquote, hslash, hfeed, hreturn⟩ := hc
    rw [List.cons_append, readQuoted, if_neg (by simp [hfeed, hreturn]), ih]
    · rfl
    · exact hquote
    · exact hslash
  | @escaped c cs left text hc _ ih =>
    have hne : cs ≠ [] := by
      rintro rfl
      cases hc
    have hread : readEscape (cs ++ '\'' :: rest) = some (c, left ++ '\'' :: rest) := by
      rw [readEscape_append hne, hc]
      rfl
    rw [List.cons_append, readQuoted]
    split
    · next hnone => rw [hread] at hnone; cases hnone
    · next d ds hsome =>
      rw [hread] at hsome
      obtain ⟨rfl, rfl⟩ := Prod.mk.inj (Option.some.inj hsome)
      rw [ih]
      rfl

theorem quoted_of_readQuoted {cs text rest : List Char} (h : readQuoted cs = some (text, rest)) :
    ∃ body, cs = body ++ '\'' :: rest ∧ Quoted body text := by
  fun_induction readQuoted cs generalizing text with
  | case1 => cases h
  | case2 cs =>
    obtain ⟨rfl, rfl⟩ := Prod.mk.inj (Option.some.inj h)
    exact ⟨[], rfl, .nil⟩
  | case3 => cases h
  | case4 cs c inner hc ih =>
    obtain ⟨⟨text, rest⟩, hread, heq⟩ := Option.map_eq_some_iff.1 h
    obtain ⟨rfl, rfl⟩ := Prod.mk.inj heq
    obtain ⟨body, rfl, hbody⟩ := ih hread
    obtain ⟨spelling, hne, rfl⟩ := suffix_of_readEscape hc
    have hescape : readEscape (spelling ++ body) = some (c, body) := by
      rw [← List.append_assoc, readEscape_append (by simp [hne])] at hc
      obtain ⟨⟨d, left⟩, hd, heq⟩ := Option.map_eq_some_iff.1 hc
      obtain ⟨rfl, hleft⟩ := Prod.mk.inj heq
      rw [hd, List.append_cancel_right hleft]
    exact ⟨'\\' :: (spelling ++ body), by simp, .escaped hescape hbody⟩
  | case5 => cases h
  | case6 c cs hquote hslash hc ih =>
    obtain ⟨⟨text, rest⟩, hread, heq⟩ := Option.map_eq_some_iff.1 h
    obtain ⟨rfl, rfl⟩ := Prod.mk.inj heq
    obtain ⟨body, rfl, hbody⟩ := ih hread
    refine ⟨c :: body, rfl, .plain ?_ hbody⟩
    simp_all

theorem span_append {p : Char → Bool} {run rest : List Char} (hrun : ∀ c ∈ run, p c)
    (hrest : ∀ c ∈ rest.head?, p c = false) :
    (run ++ rest).takeWhile p = run ∧ (run ++ rest).dropWhile p = rest := by
  rw [List.takeWhile_append_of_pos hrun, List.dropWhile_append_of_pos hrun]
  cases rest with
  | nil => simp
  | cons c rest => simp [hrest c rfl]

theorem head_dropWhile {p : Char → Bool} {cs : List Char} {c : Char}
    (h : c ∈ (cs.dropWhile p).head?) : p c = false := by
  have hnot := List.head?_dropWhile_not p cs
  rw [h] at hnot
  exact hnot

theorem Token.read_word {word rest : List Char} (hword : Word word)
    (hrest : ∀ c ∈ rest.head?, isWordChar c = false) :
    Token.read (word ++ rest) = some (.word word, rest) := by
  obtain ⟨hne, hall⟩ := hword
  cases word with
  | nil => exact absurd rfl hne
  | cons c word =>
    have hc := hall c List.mem_cons_self
    obtain ⟨htake, hdrop⟩ := span_append (fun d hd => hall d (List.mem_cons_of_mem c hd)) hrest
    have hquote : c ≠ '\'' := by
      rintro rfl
      revert hc
      decide
    rw [List.cons_append, Token.read, readSymbol_eq_none (.inl hc)]
    simp [hquote, hc, htake, hdrop]

theorem Token.read_quoted {body text : List Char} (h : Quoted body text) (rest : List Char) :
    Token.read ('\'' :: (body ++ '\'' :: rest)) = some (.quoted text, rest) := by
  rw [Token.read, readSymbol_eq_none (.inr rfl)]
  simp [readQuoted_of_quoted h]

theorem Token.read_of_readSymbol {cs rest : List Char} {t : Token}
    (h : readSymbol cs = some (t, rest)) : Token.read cs = some (t, rest) := by
  simp [Token.read, h]

theorem Token.exists_of_read {cs rest : List Char} {t : Token} (h : Token.read cs = some (t, rest)) :
    (∃ symbol, (symbol, t) ∈ symbols ∧ cs = symbol ++ rest ∧ readSymbol cs = some (t, rest)) ∨
    (∃ body text, t = .quoted text ∧ cs = '\'' :: (body ++ '\'' :: rest) ∧ Quoted body text) ∨
    (∃ word, t = .word word ∧ cs = word ++ rest ∧ Word word ∧
      ∀ c ∈ rest.head?, isWordChar c = false) := by
  unfold Token.read at h
  split at h
  · next r hr =>
    obtain rfl := Option.some.inj h
    obtain ⟨symbol, hmem, heq⟩ := exists_of_readSymbol hr
    exact .inl ⟨symbol, hmem, heq, hr⟩
  · split at h
    · cases h
    · next c cs _ =>
      split at h
      · next hc =>
        obtain ⟨⟨text, left⟩, hread, heq⟩ := Option.map_eq_some_iff.1 h
        obtain ⟨rfl, rfl⟩ := Prod.mk.inj heq
        obtain ⟨body, rfl, hbody⟩ := quoted_of_readQuoted hread
        exact .inr (.inl ⟨body, text, rfl, by rw [hc], hbody⟩)
      · split at h
        · next hc =>
          obtain ⟨rfl, rfl⟩ := Prod.mk.inj (Option.some.inj h)
          refine .inr (.inr ⟨c :: cs.takeWhile isWordChar, rfl, ?_, ⟨by simp, ?_⟩, ?_⟩)
          · simp [List.takeWhile_append_dropWhile]
          · intro d hd
            rcases List.mem_cons.1 hd with rfl | hd
            · exact hc
            · exact List.mem_takeWhile_imp hd
          · intro d hd
            exact head_dropWhile hd
        · cases h

theorem Token.scan_eq (cs : List Char) :
    Token.scan cs =
      match Token.read (cs.dropWhile isGap) with
      | none => ([], cs.dropWhile isGap)
      | some (t, rest) => (Token.scan rest).map (t :: ·) id := by
  rw [Token.scan]
  split
  · next h => rw [h]
  · next h => rw [h]

theorem scan_gap {gap : List Char} (h : Gap gap) (cs : List Char) :
    Token.scan (gap ++ cs) = Token.scan cs := by
  rw [Token.scan_eq, Token.scan_eq cs, List.dropWhile_append_of_pos h]

theorem scan_of_gap {gap : List Char} (h : Gap gap) : Token.scan gap = ([], []) := by
  have hempty : Token.scan [] = ([], []) := by
    rw [Token.scan_eq]
    rfl
  rw [← List.append_nil gap, scan_gap h, hempty]

theorem gap_of_scan {cs : List Char} (h : Token.scan cs = ([], [])) : Gap cs := by
  rw [Token.scan_eq] at h
  split at h
  · obtain ⟨_, hdrop⟩ := Prod.mk.inj h
    intro c hc
    simpa using List.dropWhile_eq_nil_iff.1 hdrop c hc
  · cases (Prod.mk.inj h).1

theorem scan_of_read {cs rest : List Char} {t : Token} (h : Token.read cs = some (t, rest))
    (hhead : ∀ c ∈ cs.head?, isGap c = false) :
    Token.scan cs = (Token.scan rest).map (t :: ·) id := by
  have hdrop : cs.dropWhile isGap = cs := by
    cases cs with
    | nil => rfl
    | cons c cs => simp [hhead c rfl]
  rw [Token.scan_eq, hdrop, h]

theorem scan_word {word rest : List Char} (hword : Word word)
    (hrest : ∀ c ∈ rest.head?, isWordChar c = false) :
    Token.scan (word ++ rest) = (Token.scan rest).map (.word word :: ·) id := by
  refine scan_of_read (Token.read_word hword hrest) fun c hc => ?_
  obtain ⟨d, hd, hwordChar⟩ := hword.exists_head
  rw [List.head?_append, hd] at hc
  obtain rfl := Option.some.inj hc
  exact not_isGap_of_isWordChar hwordChar

theorem scan_quoted {body text : List Char} (h : Quoted body text) (rest : List Char) :
    Token.scan ('\'' :: (body ++ '\'' :: rest)) = (Token.scan rest).map (.quoted text :: ·) id := by
  refine scan_of_read (Token.read_quoted h rest) fun c hc => ?_
  obtain rfl := Option.some.inj hc
  decide

theorem scan_readSymbol {symbol rest : List Char} {t : Token} (hmem : (symbol, t) ∈ symbols)
    (h : readSymbol (symbol ++ rest) = some (t, rest)) :
    Token.scan (symbol ++ rest) = (Token.scan rest).map (t :: ·) id := by
  refine scan_of_read (Token.read_of_readSymbol h) fun c hc => ?_
  cases symbol with
  | nil => exact absurd rfl (symbols_ne_nil _ hmem)
  | cons d symbol => exact (symbols_head hmem hc).2.2

theorem scan_symbol {symbol rest : List Char} {t : Token} (hmem : (symbol, t) ∈ symbols)
    (hrest : ∀ c ∈ rest.head?, goesOn c = false) :
    Token.scan (symbol ++ rest) = (Token.scan rest).map (t :: ·) id :=
  scan_readSymbol hmem (readSymbol_append hmem hrest)

theorem scan_lparen (rest : List Char) :
    Token.scan ('(' :: rest) = (Token.scan rest).map (.lparen :: ·) id :=
  scan_readSymbol (by decide : (['('], Token.lparen) ∈ symbols) rfl

theorem scan_rparen (rest : List Char) :
    Token.scan (')' :: rest) = (Token.scan rest).map (.rparen :: ·) id :=
  scan_readSymbol (by decide : ([')'], Token.rparen) ∈ symbols) rfl

theorem scan_comma (rest : List Char) :
    Token.scan (',' :: rest) = (Token.scan rest).map (.comma :: ·) id :=
  scan_readSymbol (by decide : ([','], Token.comma) ∈ symbols) rfl

theorem exists_of_scan {cs left : List Char} {t : Token} {ts : List Token}
    (h : Token.scan cs = (t :: ts, left)) :
    ∃ gap cs' rest, cs = gap ++ cs' ∧ Gap gap ∧ Token.read cs' = some (t, rest) ∧
      Token.scan rest = (ts, left) := by
  rw [Token.scan_eq] at h
  split at h
  · cases (Prod.mk.inj h).1
  · next u rest hread =>
    obtain ⟨hcons, hleft⟩ := Prod.mk.inj h
    obtain ⟨rfl, hts⟩ := List.cons.inj hcons
    refine ⟨cs.takeWhile isGap, cs.dropWhile isGap, rest, ?_, ?_, hread, Prod.ext hts hleft⟩
    · exact List.takeWhile_append_dropWhile.symm
    · exact fun c hc => List.mem_takeWhile_imp hc

end Variability.Condition
