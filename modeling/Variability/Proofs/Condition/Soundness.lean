import Variability.Proofs.Condition.Levels
import Variability.Proofs.Condition.Numbers

/-!
What the readers accept is spelled by the grammar. A reader is sound if what it takes from the
tokens of a text is a condition at the front of the text, and the tokens that it leaves are those of
the characters behind it.
-/

set_option autoImplicit false

namespace Variability.Condition

def Token.isSymbol : Token → Bool
  | .word _ | .quoted _ => false
  | _ => true

theorem isSymbol_of_mem : ∀ s ∈ symbols, s.2.isSymbol := by decide

theorem symbol_lparen : ∀ s ∈ symbols, s.2 = .lparen → s.1 = ['('] := by decide

theorem symbol_rparen : ∀ s ∈ symbols, s.2 = .rparen → s.1 = [')'] := by decide

theorem symbol_comma : ∀ s ∈ symbols, s.2 = .comma → s.1 = [','] := by decide

theorem symbol_not : ∀ s ∈ symbols, s.2 = .not → s.1 = ['!'] := by decide

section

variable {cs left : List Char} {ts : List Token}

theorem front_symbol {t : Token} (h : Token.scan cs = (t :: ts, left)) (ht : t.isSymbol) :
    ∃ gap symbol rest, cs = gap ++ (symbol ++ rest) ∧ Gap gap ∧ (symbol, t) ∈ symbols ∧
      readSymbol (symbol ++ rest) = some (t, rest) ∧ Token.scan rest = (ts, left) := by
  obtain ⟨gap, cs', rest, rfl, hgap, hread, hscan⟩ := exists_of_scan h
  rcases Token.exists_of_read hread with
    ⟨symbol, hmem, rfl, hsymbol⟩ | ⟨body, text, rfl, _⟩ | ⟨word, rfl, _⟩
  · exact ⟨gap, symbol, rest, rfl, hgap, hmem, hsymbol, hscan⟩
  · cases ht
  · cases ht

theorem front_word {word : List Char} (h : Token.scan cs = (.word word :: ts, left)) :
    ∃ gap rest, cs = gap ++ (word ++ rest) ∧ Gap gap ∧ Word word ∧
      (∀ c ∈ rest.head?, isWordChar c = false) ∧ Token.scan rest = (ts, left) := by
  obtain ⟨gap, cs', rest, rfl, hgap, hread, hscan⟩ := exists_of_scan h
  rcases Token.exists_of_read hread with
    ⟨symbol, hmem, _⟩ | ⟨body, text, hquoted, _⟩ | ⟨word', hword, rfl, hchars, hend⟩
  · cases isSymbol_of_mem _ hmem
  · cases hquoted
  · obtain rfl := Token.word.inj hword
    exact ⟨gap, rest, rfl, hgap, hchars, hend, hscan⟩

theorem front_quoted {text : List Char} (h : Token.scan cs = (.quoted text :: ts, left)) :
    ∃ gap body rest, cs = gap ++ ('\'' :: (body ++ '\'' :: rest)) ∧ Gap gap ∧ Quoted body text ∧
      Token.scan rest = (ts, left) := by
  obtain ⟨gap, cs', rest, rfl, hgap, hread, hscan⟩ := exists_of_scan h
  rcases Token.exists_of_read hread with
    ⟨symbol, hmem, _⟩ | ⟨body, text', hquoted, rfl, hbody⟩ | ⟨word, hword, _⟩
  · cases isSymbol_of_mem _ hmem
  · obtain rfl := Token.quoted.inj hquoted
    exact ⟨gap, body, rest, rfl, hgap, hbody, hscan⟩
  · cases hword

theorem front_lparen (h : Token.scan cs = (.lparen :: ts, left)) :
    ∃ gap rest, cs = gap ++ '(' :: rest ∧ Gap gap ∧ Token.scan rest = (ts, left) := by
  obtain ⟨gap, symbol, rest, rfl, hgap, hmem, _, hscan⟩ := front_symbol h rfl
  obtain rfl : symbol = ['('] := symbol_lparen _ hmem rfl
  exact ⟨gap, rest, rfl, hgap, hscan⟩

theorem front_rparen (h : Token.scan cs = (.rparen :: ts, left)) :
    ∃ gap rest, cs = gap ++ ')' :: rest ∧ Gap gap ∧ Token.scan rest = (ts, left) := by
  obtain ⟨gap, symbol, rest, rfl, hgap, hmem, _, hscan⟩ := front_symbol h rfl
  obtain rfl : symbol = [')'] := symbol_rparen _ hmem rfl
  exact ⟨gap, rest, rfl, hgap, hscan⟩

theorem front_comma (h : Token.scan cs = (.comma :: ts, left)) :
    ∃ gap rest, cs = gap ++ ',' :: rest ∧ Gap gap ∧ Token.scan rest = (ts, left) := by
  obtain ⟨gap, symbol, rest, rfl, hgap, hmem, _, hscan⟩ := front_symbol h rfl
  obtain rfl : symbol = [','] := symbol_comma _ hmem rfl
  exact ⟨gap, rest, rfl, hgap, hscan⟩

/-- An `=` behind `!` would have been read with it. -/
theorem front_not (h : Token.scan cs = (.not :: ts, left)) :
    ∃ gap rest, cs = gap ++ '!' :: rest ∧ Gap gap ∧ rest.head? ≠ some '=' ∧
      Token.scan rest = (ts, left) := by
  obtain ⟨gap, symbol, rest, rfl, hgap, hmem, hread, hscan⟩ := front_symbol h rfl
  obtain rfl : symbol = ['!'] := symbol_not _ hmem rfl
  refine ⟨gap, rest, rfl, hgap, fun hequal => ?_, hscan⟩
  cases rest with
  | nil => cases hequal
  | cons c rest =>
    obtain rfl := Option.some.inj hequal
    cases hread

end

/-- A condition of a level stands at the front of the text, behind blanks and before the characters
of the tokens. -/
def Front (level : Level) (cs : List Char) (e : Expression) (ts : List Token) (left : List Char) :
    Prop :=
  ∃ gap body rest, cs = gap ++ (body ++ rest) ∧ Gap gap ∧ Spells level body e ∧
    Token.scan rest = (ts, left)

def Sound (level : Level) (read : Reader Expression) : Prop :=
  ∀ ⦃cs left ts rest e⦄, Token.scan cs = (ts, left) → read ts = some (e, rest) →
    Front level cs e rest left

theorem front_number {cs left word : List Char} {ts rest : List Token} {e : Expression}
    (hscan : Token.scan cs = (.word word :: ts, left)) (h : number word ts = some (e, rest)) :
    Front .operand cs e rest left := by
  obtain ⟨gap, after, rfl, hgap, hword, hend, hafter⟩ := front_word hscan
  clear hscan
  rw [number] at h
  split at h
  · cases h
  · next e' hsplit =>
    obtain ⟨body, hbody, _, hspells⟩ := exists_of_splitNumber hsplit
    rw [List.append_nil] at hbody
    subst hbody
    have hplain : Front .operand (gap ++ (word ++ after)) e' ts left :=
      ⟨gap, word ++ [], after, by simp, hgap, hspells [] .none, hafter⟩
    split at h
    · next w ts =>
      split at h
      · next hletters =>
        obtain ⟨rfl, rfl⟩ := Prod.mk.inj (Option.some.inj h)
        obtain ⟨gap', after', rfl, hgap', hw, _, hafter'⟩ := front_word hafter
        have hsuffix := Suffix.letters hgap' hw.1 (List.all_eq_true.1 hletters)
        exact ⟨gap, word ++ (gap' ++ w), after', by simp, hgap, hspells _ hsuffix, hafter'⟩
      · obtain ⟨rfl, rfl⟩ := Prod.mk.inj (Option.some.inj h)
        exact hplain
    · obtain ⟨rfl, rfl⟩ := Prod.mk.inj (Option.some.inj h)
      exact hplain
  · next e' suffix hne hsplit =>
    obtain ⟨body, rfl, _, hspells⟩ := exists_of_splitNumber hsplit
    have hnil : suffix ≠ [] := fun hempty => hne hempty
    obtain ⟨rfl, rfl⟩ := Prod.mk.inj (Option.some.inj h)
    split
    · next hletters =>
      have hgapNone : Gap [] := by simp [Gap]
      have hsuffix := Suffix.letters hgapNone hnil (List.all_eq_true.1 hletters)
      exact ⟨gap, body ++ suffix, after, rfl, hgap, hspells _ hsuffix, hafter⟩
    -- letters that are no suffix are left over, as the next word
    · have hleft : Word suffix := ⟨hnil, fun c hc => hword.2 c (List.mem_append_right body hc)⟩
      refine ⟨gap, body ++ [], suffix ++ after, by simp, hgap, hspells [] .none, ?_⟩
      rw [scan_word hleft hend, hafter]
      rfl

def FrontMore (cs : List Char) (args : List String) (ts : List Token) (left : List Char) : Prop :=
  ∃ gap after, Gap gap ∧ Token.scan after = (ts, left) ∧
    ((args = [] ∧ cs = gap ++ ')' :: after) ∨
      ∃ body, args ≠ [] ∧ Arguments body args ∧ cs = gap ++ ',' :: (body ++ ')' :: after))

theorem FrontMore.cons {cs left before word : List Char} {args : List String} {ts : List Token}
    (h : FrontMore cs args ts left) (hbefore : Gap before) (hword : Word word) :
    ∃ body after, before ++ (word ++ cs) = body ++ ')' :: after ∧
      Arguments body (String.ofList word :: args) ∧ Token.scan after = (ts, left) := by
  obtain ⟨gap, after, hgap, hscan, ⟨rfl, rfl⟩ | ⟨body, hne, hbody, rfl⟩⟩ := h
  · exact ⟨before ++ word ++ gap, after, by simp, .last hbefore hword hgap, hscan⟩
  · exact ⟨before ++ word ++ gap ++ ',' :: body, after, by simp,
      .more hbefore hword hgap hne hbody, hscan⟩

theorem front_moreArguments {cs left : List Char} {ts rest : List Token} {args : List String}
    (hscan : Token.scan cs = (ts, left)) (h : moreArguments ts = some (args, rest)) :
    FrontMore cs args rest left := by
  fun_induction moreArguments ts generalizing cs args with
  | case1 ts =>
    obtain ⟨rfl, rfl⟩ := Prod.mk.inj (Option.some.inj h)
    obtain ⟨gap, after, rfl, hgap, hscan⟩ := front_rparen hscan
    exact ⟨gap, after, hgap, hscan, .inl ⟨rfl, rfl⟩⟩
  | case2 word ts ih =>
    obtain ⟨⟨args', rest'⟩, hmore, heq⟩ := Option.map_eq_some_iff.1 h
    obtain ⟨rfl, rfl⟩ := Prod.mk.inj heq
    obtain ⟨gap, cs, rfl, hgap, hscan⟩ := front_comma hscan
    obtain ⟨before, cs, rfl, hbefore, hword, _, hscan⟩ := front_word hscan
    obtain ⟨body, after, hcs, hbody, hscan⟩ := (ih hscan hmore).cons hbefore hword
    exact ⟨gap, after, hgap, hscan, .inr ⟨body, by simp, hbody, by rw [hcs]⟩⟩
  | case3 => cases h

theorem front_arguments {cs left : List Char} {ts rest : List Token} {args : List String}
    (hscan : Token.scan cs = (ts, left)) (h : arguments ts = some (args, rest)) :
    ∃ body after, cs = body ++ ')' :: after ∧ Arguments body args ∧
      Token.scan after = (rest, left) := by
  unfold arguments at h
  split at h
  · obtain ⟨rfl, rfl⟩ := Prod.mk.inj (Option.some.inj h)
    obtain ⟨gap, after, rfl, hgap, hscan⟩ := front_rparen hscan
    exact ⟨gap, after, rfl, .none hgap, hscan⟩
  · obtain ⟨⟨args', rest'⟩, hmore, heq⟩ := Option.map_eq_some_iff.1 h
    obtain ⟨rfl, rfl⟩ := Prod.mk.inj heq
    obtain ⟨before, cs, rfl, hbefore, hword, _, hscan⟩ := front_word hscan
    exact (front_moreArguments hscan hmore).cons hbefore hword
  · cases h

theorem front_identifier {cs left word : List Char} {ts rest : List Token} {e : Expression}
    (hscan : Token.scan cs = (.word word :: ts, left)) (h : identifier word ts = some (e, rest)) :
    Front .operand cs e rest left := by
  obtain ⟨gap, cs, rfl, hgap, _, _, hscan⟩ := front_word hscan
  unfold identifier at h
  split at h
  · next hword =>
    have hname : Front .operand (gap ++ (word ++ cs)) (.name (String.ofList word)) ts left :=
      ⟨gap, word, cs, rfl, hgap, .name hword, hscan⟩
    split at h
    · next inner =>
      split at h
      · next args rest' hargs =>
        obtain ⟨rfl, rfl⟩ := Prod.mk.inj (Option.some.inj h)
        obtain ⟨gap', cs, rfl, hgap', hscan⟩ := front_lparen hscan
        obtain ⟨body, after, rfl, hbody, hscan⟩ := front_arguments hscan hargs
        exact ⟨gap, word ++ gap' ++ '(' :: body ++ [')'], after, by simp, hgap,
          .call hword hgap' hbody, hscan⟩
      · obtain ⟨rfl, rfl⟩ := Prod.mk.inj (Option.some.inj h)
        exact hname
    · obtain ⟨rfl, rfl⟩ := Prod.mk.inj (Option.some.inj h)
      exact hname
  · cases h

theorem sound_operand {inner : Reader Expression} (h : Sound (.join .disjunction) inner) :
    Sound .operand (operand inner) := by
  intro cs left ts rest e hscan hread
  unfold operand at hread
  split at hread
  · next ts =>
    obtain ⟨gap, cs, rfl, hgap, hscan⟩ := front_lparen hscan
    split at hread
    · next e' rest' hinner =>
      obtain ⟨rfl, rfl⟩ := Prod.mk.inj (Option.some.inj hread)
      obtain ⟨before, body, after, rfl, hbefore, hbody, hscan⟩ := h hscan hinner
      obtain ⟨gap', cs', rfl, hgap', hscan⟩ := front_rparen hscan
      exact ⟨gap, '(' :: before ++ body ++ gap' ++ [')'], cs', by simp, hgap,
        .parentheses hbefore hgap' hbody, hscan⟩
    · cases hread
  · next text ts =>
    obtain ⟨rfl, rfl⟩ := Prod.mk.inj (Option.some.inj hread)
    obtain ⟨gap, body, cs, rfl, hgap, hbody, hscan⟩ := front_quoted hscan
    exact ⟨gap, '\'' :: body ++ ['\''], cs, by simp, hgap, .quoted hbody, hscan⟩
  · next word ts =>
    rcases Option.or_eq_some_iff.1 hread with hread | ⟨_, hread⟩
    · exact front_number hscan hread
    · exact front_identifier hscan hread
  · cases hread

theorem sound_definedOperand {inner : Reader Expression} (h : Sound .operand (operand inner)) :
    Sound .defined (definedOperand inner) := by
  intro cs left ts rest e hscan hread
  induction ts generalizing cs e with
  | nil => cases hread
  | cons t ts ih =>
    rw [definedOperand] at hread
    split at hread
    · next ht =>
      subst ht
      obtain ⟨⟨e', rest'⟩, hinner, heq⟩ := Option.map_eq_some_iff.1 hread
      obtain ⟨rfl, rfl⟩ := Prod.mk.inj heq
      obtain ⟨gap, cs, rfl, hgap, _, hend, hscan⟩ := front_word hscan
      obtain ⟨gap', body, cs', rfl, hgap', hbody, hscan⟩ := ih hscan hinner
      refine ⟨gap, "defined".toList ++ gap' ++ body, cs', by simp, hgap,
        .defined hgap' (fun c hc => ?_) hbody, hscan⟩
      rw [← List.append_assoc, List.head?_append, hc] at hend
      simpa using hend
    · obtain ⟨gap, body, cs', hcs, hgap, hbody, hscan⟩ := h hscan hread
      exact ⟨gap, body, cs', hcs, hgap, .operand hbody, hscan⟩

theorem sound_unary {inner : Reader Expression} (h : Sound .defined (definedOperand inner)) :
    Sound .not (unary inner) := by
  intro cs left ts rest e hscan hread
  induction ts generalizing cs e with
  | nil => cases hread
  | cons t ts ih =>
    rw [unary] at hread
    split at hread
    · next ht =>
      subst ht
      obtain ⟨⟨e', rest'⟩, hinner, heq⟩ := Option.map_eq_some_iff.1 hread
      obtain ⟨rfl, rfl⟩ := Prod.mk.inj heq
      obtain ⟨gap, cs, rfl, hgap, hunequal, hscan⟩ := front_not hscan
      obtain ⟨gap', body, cs', rfl, hgap', hbody, hscan⟩ := ih hscan hinner
      refine ⟨gap, '!' :: gap' ++ body, cs', by simp, hgap, .not hgap' (fun hequal => ?_) hbody,
        hscan⟩
      rw [← List.append_assoc, List.head?_append, hequal] at hunequal
      exact hunequal rfl
    · obtain ⟨gap, body, cs', hcs, hgap, hbody, hscan⟩ := h hscan hread
      exact ⟨gap, body, cs', hcs, hgap, .positive hbody, hscan⟩

theorem isSymbol_of_joins {join : Join} {t : Token} (h : join.joins t) : t.isSymbol := by
  cases t with
  | word w => cases join <;> cases h
  | quoted text => cases join <;> cases h
  | _ => rfl

def FrontSteps (join : Join) (cs : List Char) (more : List (Token × Expression)) (ts : List Token)
    (left : List Char) : Prop :=
  ∃ (joined : List Step) (after : List Char), cs = joined.flatMap Step.spelling ++ after ∧
    (∀ s ∈ joined, s.Joins join) ∧ (∀ s ∈ joined, Spells join.below s.text s.operand) ∧
    joined.map (fun s => (s.token, s.operand)) = more ∧ Token.scan after = (ts, left)

theorem FrontSteps.nil (join : Join) {cs left : List Char} {ts : List Token}
    (hscan : Token.scan cs = (ts, left)) : FrontSteps join cs [] ts left :=
  ⟨[], cs, rfl, by simp, by simp, rfl, hscan⟩

theorem front_steps {join : Join} {sub : Reader Expression} (h : Sound join.below sub)
    {fuel : Nat} {cs left : List Char} {ts rest : List Token} {more : List (Token × Expression)}
    (hscan : Token.scan cs = (ts, left))
    (hread : steps join.joins sub fuel ts = some (more, rest)) :
    FrontSteps join cs more rest left := by
  fun_induction steps join.joins sub fuel ts generalizing cs more with
  | case1 fuel t ts e ts' hsub ih =>
    obtain ⟨⟨more', rest'⟩, hmore, heq⟩ := Option.map_eq_some_iff.1 hread
    obtain ⟨rfl, rfl⟩ := Prod.mk.inj heq
    split at hsub
    · next hjoins =>
      obtain ⟨before, symbol, cs, rfl, hbefore, hmem, _, hsymbol⟩ :=
        front_symbol hscan (isSymbol_of_joins hjoins)
      obtain ⟨after, body, cs, rfl, hafter, hbody, hoperand⟩ := h hsymbol hsub
      obtain ⟨joined, cs, rfl, hall, hspells, rfl, hrest⟩ := ih hoperand hmore
      refine ⟨⟨before, symbol, t, after, body, e⟩ :: joined, cs, by simp [Step.spelling], ?_, ?_,
        rfl, hrest⟩
      · intro s hs
        rcases List.mem_cons.1 hs with rfl | hs
        · exact ⟨hbefore, hmem, hjoins, hafter⟩
        · exact hall s hs
      · intro s hs
        rcases List.mem_cons.1 hs with rfl | hs
        · exact hbody
        · exact hspells s hs
    · cases hsub
  | case2 fuel t ts _ =>
    obtain ⟨rfl, rfl⟩ := Prod.mk.inj (Option.some.inj hread)
    exact .nil join hscan
  | case3 =>
    obtain ⟨rfl, rfl⟩ := Prod.mk.inj (Option.some.inj hread)
    exact .nil join hscan

theorem sound_joinOf {join : Join} {sub : Reader Expression} (h : Sound join.below sub) :
    Sound (.join join) (joinOf join sub) := by
  intro cs left ts rest e hscan hread
  obtain ⟨first, rest', more, hfirst, hmore, rfl⟩ := exists_of_joinOf hread
  obtain ⟨gap, body, cs', rfl, hgap, hbody, hscan⟩ := h hscan hfirst
  obtain ⟨joined, after, rfl, hjoins, hoperands, rfl, hscan⟩ := front_steps h hscan hmore
  exact ⟨gap, body ++ joined.flatMap Step.spelling, after, by simp, hgap,
    .chain hbody hjoins hoperands, hscan⟩

theorem sound_reader_of_expression {depth : Nat}
    (h : Sound (.join .disjunction) (expression depth)) (level : Level) :
    Sound level (level.reader depth) := by
  have hjoin : ∀ join : Join, Sound join.below (join.below.reader depth) →
      Sound (.join join) ((Level.join join).reader depth) := by
    intro join hbelow
    rw [Level.reader_join]
    exact sound_joinOf hbelow
  have hoperand : Sound .operand (Level.operand.reader depth) := sound_operand h
  have hdefined : Sound .defined (Level.defined.reader depth) := sound_definedOperand hoperand
  have hnot : Sound .not (Level.not.reader depth) := sound_unary hdefined
  have hsums := hjoin .arithmetic hnot
  have hcomparisons := hjoin .comparison hsums
  have hconjunctions := hjoin .conjunction hcomparisons
  match level with
  | .operand => exact hoperand
  | .defined => exact hdefined
  | .not => exact hnot
  | .join .arithmetic => exact hsums
  | .join .comparison => exact hcomparisons
  | .join .conjunction => exact hconjunctions
  | .join .disjunction => exact hjoin .disjunction hconjunctions

theorem sound_expression (depth : Nat) : Sound (.join .disjunction) (expression depth) := by
  induction depth with
  | zero =>
    intro cs left ts rest e _ hread
    cases hread
  | succ depth ih => exact sound_reader_of_expression ih (.join .disjunction)

theorem sound_reader (depth : Nat) (level : Level) : Sound level (level.reader depth) :=
  sound_reader_of_expression (sound_expression depth) level

theorem derives_of_parse {text : List Char} {e : Expression} (h : parse text = some e) :
    Derives text e := by
  unfold parse at h
  split at h
  · next ts hscan =>
    split at h
    · next e' hread =>
      obtain rfl := Option.some.inj h
      obtain ⟨gap, body, after, rfl, hgap, hbody, hscan⟩ := sound_expression _ hscan hread
      exact ⟨gap, body, after, by simp, hgap, gap_of_scan hscan, hbody⟩
    · cases h
  · cases h

end Variability.Condition
