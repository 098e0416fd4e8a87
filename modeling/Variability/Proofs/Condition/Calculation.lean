import Variability.Proofs.Condition.Rendering

/-!
The variables that calculations stand for. A calculation joins numbers, identifiers and macro calls
by operators alone.
-/

set_option autoImplicit false

namespace Variability.Condition

deriving instance DecidableEq for Expression, Links

mutual

/-- Operators alone join the operands of an expression, each of which has a property. -/
def Expression.Over (p : Expression → Prop) : Expression → Prop
  | .number spelling value => p (.number spelling value)
  | .quoted text => p (.quoted text)
  | .name text => p (.name text)
  | .call function arguments => p (.call function arguments)
  | .chain first rest => first.Over p ∧ rest.Over p
  | .defined _ | .not _ | .and _ _ | .or _ _ => False

def Links.Over (p : Expression → Prop) : Links → Prop
  | .last _ e => e.Over p
  | .link _ e rest => e.Over p ∧ rest.Over p

end

/-- A number, or an identifier or a macro call without an underscore. -/
def Expression.Unscored : Expression → Prop
  | .number _ _ => True
  | .name text => '_' ∉ text.toList
  | .call function arguments => '_' ∉ function.toList ∧ ∀ a ∈ arguments, '_' ∉ a.toList
  | _ => False

structure Expression.IsCalculation (e : Expression) : Prop where
  chained : ∃ first rest, e = .chain first rest
  operands : e.Over Unscored

section

variable {p q : Expression → Prop}

theorem Expression.Over.cases {e : Expression} (h : e.Over p) :
    p e ∨ ∃ first rest, e = .chain first rest ∧ first.Over p ∧ rest.Over p := by
  cases e with
  | chain first rest =>
    rw [Over] at h
    exact .inr ⟨first, rest, rfl, h⟩
  | number spelling value => exact .inl (by rwa [Over] at h)
  | quoted text => exact .inl (by rwa [Over] at h)
  | name text => exact .inl (by rwa [Over] at h)
  | call function arguments => exact .inl (by rwa [Over] at h)
  | _ => exact False.elim h

theorem Links.over_ofList {op : Operator} {e : Expression} {more : List (Operator × Expression)} :
    (ofList op e more).Over p ↔ e.Over p ∧ ∀ m ∈ more, m.2.Over p := by
  induction more generalizing op e with
  | nil => simp [ofList, Over]
  | cons m more ih => simp [ofList, Over, ih]

theorem Expression.over_ofChain {first : Expression} {more : List (Operator × Expression)} :
    (ofChain first more).Over p ↔ first.Over p ∧ ∀ m ∈ more, m.2.Over p := by
  cases more with
  | nil => simp [ofChain]
  | cons m more => simp [ofChain, Over, Links.over_ofList]

theorem Expression.eq_nil_of_over_foldl {join : Expression → Expression → Expression}
    (hjoin : ∀ l r, ¬(join l r).Over p) {first : Expression} {more : List Expression}
    (h : (more.foldl join first).Over p) : more = [] := by
  rcases List.eq_nil_or_concat more with rfl | ⟨front, last, rfl⟩
  · rfl
  · rw [List.concat_eq_append, List.foldl_append] at h
    exact absurd h (hjoin _ _)

theorem Join.exists_of_mem_operators {more : List (Token × Expression)}
    {m : Operator × Expression} (h : m ∈ operators more) : ∃ m' ∈ more, m'.2 = m.2 := by
  obtain ⟨⟨t, e⟩, hmem, heq⟩ := List.mem_filterMap.1 h
  cases t with
  | op o =>
    obtain rfl := Option.some.inj heq
    exact ⟨_, hmem, rfl⟩
  | _ => cases heq

theorem Join.over_node {join : Join} {first : Expression} {more : List (Token × Expression)}
    (h : (join.node first more).Over p) (hfirst : first.Over p → first.Over q)
    (hmore : ∀ m ∈ more, m.2.Over p → m.2.Over q) : (join.node first more).Over q := by
  have hchain : (Expression.ofChain first (operators more)).Over p →
      (Expression.ofChain first (operators more)).Over q := by
    rw [Expression.over_ofChain, Expression.over_ofChain]
    refine fun ⟨hp, hops⟩ => ⟨hfirst hp, fun m hm => ?_⟩
    obtain ⟨m', hmem, heq⟩ := exists_of_mem_operators hm
    exact heq ▸ hmore m' hmem (heq ▸ hops m hm)
  cases join with
  | arithmetic => exact hchain h
  | comparison => exact hchain h
  | conjunction =>
    have hnone := Expression.eq_nil_of_over_foldl (fun l r => by simp [Expression.Over]) h
    rw [node, hnone] at h ⊢
    exact hfirst h
  | disjunction =>
    have hnone := Expression.eq_nil_of_over_foldl (fun l r => by simp [Expression.Over]) h
    rw [node, hnone] at h ⊢
    exact hfirst h

end

def Expression.label (e : Expression) : List Char := e.meaning.text.toList

def Links.label (l : Links) : List Char := l.text.toList

theorem Expression.label_chain (first : Expression) (rest : Links) :
    (Expression.chain first rest).label = '(' :: (first.label ++ (rest.label ++ [')'])) := by
  simp [label, Links.label, meaning, Meaning.text]

theorem Links.label_last (op : Operator) (e : Expression) :
    (Links.last op e).label = op.code.toList ++ e.label := by
  simp [label, Links.text, Expression.label]

theorem Links.label_link (op : Operator) (e : Expression) (rest : Links) :
    (Links.link op e rest).label = op.code.toList ++ (e.label ++ rest.label) := by
  simp [label, Links.text, Expression.label]

/-- Letters and digits, and behind them maybe arguments in parentheses. -/
inductive Simple : List Char → Prop where
  | word {word : List Char} (hne : word ≠ []) (hword : ∀ c ∈ word, c.isAlphanum) : Simple word
  | call {word cs : List Char} (hne : word ≠ []) (hword : ∀ c ∈ word, c.isAlphanum)
      (hclose : ')' ∉ cs) : Simple (word ++ '(' :: (cs ++ [')']))

structure Operand (e : Expression) : Prop where
  spells : Spells .operand e.label e
  simple : Simple e.label

theorem isAlphanum_of_isWordChar {c : Char} (h : isWordChar c) (hc : c ≠ '_') : c.isAlphanum := by
  simpa [isWordChar, hc] using h

theorem Arguments.words {cs : List Char} {args : List String} (h : Arguments cs args) :
    ∀ a ∈ args, Word a.toList := by
  induction h with
  | none => simp
  | last _ hword => simpa using hword
  | more _ hword _ _ _ ih => exact List.forall_mem_cons.2 ⟨by simpa using hword, ih⟩

theorem operand_word {word : List Char} {e : Expression} (hlabel : e.label = word)
    (hspells : Spells .operand word e) (hword : Word word) (hscore : '_' ∉ word) : Operand e := by
  subst hlabel
  refine ⟨hspells, .word hword.1 fun c hc => isAlphanum_of_isWordChar (hword.2 c hc) ?_⟩
  rintro rfl
  exact hscore hc

open Expression in
theorem operand_hexadecimal {x : Char} {digits : List Char} (hx : x = 'x' ∨ x = 'X') (hne : digits ≠ [])
    (hdigits : ∀ c ∈ digits, isHexDigit c) :
    Operand (.number (String.ofList ('0' :: x :: digits)) (valueIn 16 digits)) := by
  have hspells := Spells.hexadecimal hx hne hdigits .none
  rw [List.append_nil] at hspells
  have hmark : isWordChar x ∧ x ≠ '_' := by rcases hx with rfl | rfl <;> decide
  refine operand_word (by simp [label, meaning, Meaning.text]) hspells ⟨by simp, ?_⟩ ?_
  · exact List.forall_mem_cons.2 ⟨by decide, List.forall_mem_cons.2
      ⟨hmark.1, fun c hc => isWordChar_of_isHexDigit (hdigits c hc)⟩⟩
  · rw [List.mem_cons, List.mem_cons, not_or, not_or]
    exact ⟨by decide, hmark.2.symm, fun hmem => absurd (hdigits _ hmem) (by decide)⟩

open Expression in
theorem operand_decimal {digits : List Char} (hne : digits ≠ []) (hdigits : ∀ c ∈ digits, c.isDigit) :
    Operand (.number (String.ofList digits) (valueIn 10 digits)) := by
  have hspells := Spells.decimal hne hdigits .none
  rw [List.append_nil] at hspells
  refine operand_word (by simp [label, meaning, Meaning.text]) hspells
    ⟨hne, fun c hc => isWordChar_of_isDigit (hdigits c hc)⟩ fun hmem => ?_
  exact absurd (hdigits _ hmem) (by decide)

open Expression in
theorem operand_call {word : List Char} {args : List String} (hname : isIdentifier word)
    (hscore : '_' ∉ word) (hwords : ∀ a ∈ args, Word a.toList) :
    Operand (.call (String.ofList word) args) := by
  have hlabel : (Expression.call (String.ofList word) args).label =
      word ++ '(' :: ((",".intercalate args).toList ++ [')']) := by
    simp [label, meaning, Meaning.text]
  have hspells := Spells.call hname (show Gap [] by simp [Gap]) (arguments_intercalate hwords)
  have hword := isIdentifier_word hname
  constructor
  · rw [hlabel]
    simpa using hspells
  · rw [hlabel]
    refine .call hword.1 (fun c hc => isAlphanum_of_isWordChar (hword.2 c hc) ?_) fun hmem => ?_
    · rintro rfl
      exact hscore hc
    · rcases mem_intercalate hmem with hcomma | ⟨a, ha, hc⟩
      · exact absurd hcomma (by decide)
      · exact absurd ((hwords a ha).2 _ hc) (by decide)

open Expression in
theorem Spells.over_operand {level : Level} {cs : List Char} {e : Expression}
    (h : Spells level cs e) (hover : e.Over Unscored) : e.Over Operand := by
  induction h with
  | hexadecimal hx hne hdigits _ => exact operand_hexadecimal hx hne hdigits
  | decimal hne hdigits _ => exact operand_decimal hne hdigits
  | quoted => exact False.elim hover
  | @name word hname =>
    rw [Over, Unscored, String.toList_ofList] at hover
    exact operand_word (by simp [label, meaning, Meaning.text]) (.name hname)
      (isIdentifier_word hname) hover
  | @call word gap cs args hname _ hargs =>
    rw [Over, Unscored, String.toList_ofList] at hover
    exact operand_call hname hover.1 hargs.words
  | parentheses _ _ _ ih => exact ih hover
  | operand _ ih => exact ih hover
  | defined => exact False.elim hover
  | positive _ ih => exact ih hover
  | not => exact False.elim hover
  | @chain join cs first steps _ _ _ ihfirst ihmore =>
    refine Join.over_node hover ihfirst fun m hm => ?_
    obtain ⟨s, hs, rfl⟩ := List.mem_map.1 hm
    exact ihmore s hs

def Follows (cs : List Char) : Prop := ∀ c ∈ cs.head?, c = '_' ∨ c = ')'

def Closes (cs : List Char) : Prop := ∀ c ∈ cs.head?, c = ')'

theorem Closes.follows {cs : List Char} (h : Closes cs) : Follows cs := fun c hc => .inr (h c hc)

theorem closes_nil : Closes [] := by simp [Closes]

theorem closes_rparen (cs : List Char) : Closes (')' :: cs) := by simp [Closes]

theorem code_eq (op : Operator) : ∃ c d, op.code.toList = ['_', c, d, '_'] := by
  cases op <;> exact ⟨_, _, rfl⟩

theorem code_append_inj {op op' : Operator} {cs cs' : List Char}
    (h : op.code.toList ++ cs = op'.code.toList ++ cs') : op = op' ∧ cs = cs' := by
  obtain ⟨c, d, hcode⟩ := code_eq op
  obtain ⟨c', d', hcode'⟩ := code_eq op'
  obtain ⟨hsame, hrest⟩ := List.append_inj h (by simp [hcode, hcode'])
  exact ⟨Operator.code_injective (String.toList_inj.1 hsame), hrest⟩

theorem Links.head_label (l : Links) (cs : List Char) : (l.label ++ cs).head? = some '_' := by
  cases l with
  | last op e =>
    obtain ⟨c, d, hcode⟩ := code_eq op
    simp [label_last, hcode]
  | link op e rest =>
    obtain ⟨c, d, hcode⟩ := code_eq op
    simp [label_link, hcode]

theorem Links.follows_label (l : Links) (cs : List Char) : Follows (l.label ++ cs) := by
  intro c hc
  rw [l.head_label] at hc
  exact .inl (Option.some.inj hc).symm

theorem Links.not_closes_label (l : Links) (cs : List Char) : ¬Closes (l.label ++ cs) := fun h =>
  absurd (h '_' (l.head_label cs)) (by decide)

section

variable {cs cs' rest rest' : List Char}

theorem Follows.not_isAlphanum (h : Follows rest) : ∀ c ∈ rest.head?, c.isAlphanum = false := by
  intro c hc
  rcases h c hc with rfl | rfl <;> decide

theorem run_append_inj {p : Char → Bool} (hcs : ∀ c ∈ cs, p c) (hcs' : ∀ c ∈ cs', p c)
    (hrest : ∀ c ∈ rest.head?, p c = false) (hrest' : ∀ c ∈ rest'.head?, p c = false)
    (h : cs ++ rest = cs' ++ rest') : cs = cs' ∧ rest = rest' := by
  obtain ⟨htake, hdrop⟩ := span_append hcs hrest
  obtain ⟨htake', hdrop'⟩ := span_append hcs' hrest'
  rw [h] at htake hdrop
  exact ⟨htake.symm.trans htake', hdrop.symm.trans hdrop'⟩

theorem rparen_append_inj (hcs : ')' ∉ cs) (hcs' : ')' ∉ cs')
    (h : cs ++ ')' :: rest = cs' ++ ')' :: rest') : cs = cs' ∧ rest = rest' := by
  have hrun : ∀ ds : List Char, ')' ∉ ds → ∀ c ∈ ds, decide (c ≠ ')') := by
    intro ds hds c hc
    exact decide_eq_true (ne_of_mem_of_not_mem hc hds)
  have hend : ∀ ds : List Char, ∀ c ∈ (')' :: ds).head?, decide (c ≠ ')') = false := by simp
  obtain ⟨hsame, htail⟩ := run_append_inj (hrun cs hcs) (hrun cs' hcs') (hend _) (hend _) h
  exact ⟨hsame, (List.cons.inj htail).2⟩

theorem Simple.append_inj (hcs : Simple cs) (hcs' : Simple cs') (hrest : Follows rest)
    (hrest' : Follows rest') (h : cs ++ rest = cs' ++ rest') : cs = cs' ∧ rest = rest' := by
  have hopen : ∀ ds : List Char, ∀ c ∈ ('(' :: ds).head?, c.isAlphanum = false := by simp
  cases hcs with
  | word hne hword =>
    cases hcs' with
    | word hne' hword' =>
      exact run_append_inj hword hword' hrest.not_isAlphanum hrest'.not_isAlphanum h
    | call hne' hword' hclose' =>
      simp only [List.append_assoc, List.cons_append] at h
      obtain ⟨-, rfl⟩ := run_append_inj hword hword' hrest.not_isAlphanum (hopen _) h
      exact absurd (hrest _ rfl) (by decide)
  | call hne hword hclose =>
    cases hcs' with
    | word hne' hword' =>
      simp only [List.append_assoc, List.cons_append] at h
      obtain ⟨-, rfl⟩ := run_append_inj hword hword' (hopen _) hrest'.not_isAlphanum h
      exact absurd (hrest' _ rfl) (by decide)
    | call hne' hword' hclose' =>
      simp only [List.append_assoc, List.cons_append, List.nil_append] at h
      obtain ⟨rfl, hcall⟩ := run_append_inj hword hword' (hopen _) (hopen _) h
      obtain ⟨rfl, rfl⟩ := rparen_append_inj hclose hclose' (List.cons.inj hcall).2
      exact ⟨rfl, rfl⟩

end

theorem Simple.head {cs : List Char} (h : Simple cs) :
    ∃ c ds, cs = c :: ds ∧ c.isAlphanum := by
  have hword : ∀ word : List Char, word ≠ [] → (∀ c ∈ word, c.isAlphanum) →
      ∃ c ds, word = c :: ds ∧ c.isAlphanum := by
    intro word hne hall
    obtain ⟨c, ds, rfl⟩ := List.exists_cons_of_ne_nil hne
    exact ⟨c, ds, rfl, hall c List.mem_cons_self⟩
  cases h with
  | word hne hall => exact hword _ hne hall
  | call hne hall _ =>
    obtain ⟨c, ds, rfl, hc⟩ := hword _ hne hall
    exact ⟨c, _, rfl, hc⟩

theorem Operand.eq_of_label {e e' : Expression} (h : Operand e) (h' : Operand e')
    (hlabel : e.label = e'.label) : e = e' := by
  have hnone : Gap [] := by simp [Gap]
  have hderives : Derives e.label e :=
    ⟨[], e.label, [], by simp, hnone, hnone, h.spells.ofOperand⟩
  have hderives' : Derives e.label e' :=
    ⟨[], e'.label, [], by simp [hlabel], hnone, hnone, h'.spells.ofOperand⟩
  exact hderives.unique hderives'

/-- The label of a chain opens with a parenthesis, that of an operand does not. -/
theorem Operand.label_append_ne {e : Expression} (h : Operand e) (first : Expression)
    (links : Links) (rest rest' : List Char) :
    e.label ++ rest ≠ (Expression.chain first links).label ++ rest' := by
  obtain ⟨c, ds, hlabel, hc⟩ := h.simple.head
  rw [hlabel, Expression.label_chain]
  rintro heq
  obtain ⟨rfl, -⟩ := List.cons.inj heq
  exact absurd hc (by decide)

mutual

/-- A label and what follows it can be told apart. -/
theorem Expression.label_append_inj {e e' : Expression} (h : e.Over Operand)
    (h' : e'.Over Operand) {cs cs' : List Char} (hcs : Follows cs) (hcs' : Follows cs')
    (heq : e.label ++ cs = e'.label ++ cs') : e = e' ∧ cs = cs' := by
  rcases h.cases with hoperand | ⟨first, rest, rfl, hfirst, hrest⟩
  · rcases h'.cases with hoperand' | ⟨first', rest', rfl, -, -⟩
    · obtain ⟨hlabel, hfollows⟩ := hoperand.simple.append_inj hoperand'.simple hcs hcs' heq
      exact ⟨hoperand.eq_of_label hoperand' hlabel, hfollows⟩
    · exact absurd heq (hoperand.label_append_ne _ _ _ _)
  · rcases h'.cases with hoperand' | ⟨first', rest', rfl, hfirst', hrest'⟩
    · exact absurd heq.symm (hoperand'.label_append_ne _ _ _ _)
    · simp only [Expression.label_chain, List.cons_append, List.append_assoc, List.nil_append,
        List.cons.injEq, true_and] at heq
      obtain ⟨rfl, hlinks⟩ := Expression.label_append_inj hfirst hfirst'
        (rest.follows_label _) (rest'.follows_label _) heq
      obtain ⟨rfl, hclosed⟩ := Links.label_append_inj hrest hrest' (closes_rparen cs)
        (closes_rparen cs') hlinks
      exact ⟨rfl, (List.cons.inj hclosed).2⟩
termination_by sizeOf e

theorem Links.label_append_inj {l l' : Links} (h : l.Over Operand) (h' : l'.Over Operand)
    {cs cs' : List Char} (hcs : Closes cs) (hcs' : Closes cs')
    (heq : l.label ++ cs = l'.label ++ cs') : l = l' ∧ cs = cs' := by
  cases l with
  | last op e =>
    cases l' with
    | last op' e' =>
      rw [Links.label_last, Links.label_last, List.append_assoc, List.append_assoc] at heq
      obtain ⟨rfl, htail⟩ := code_append_inj heq
      obtain ⟨rfl, rfl⟩ := Expression.label_append_inj h h' hcs.follows hcs'.follows htail
      exact ⟨rfl, rfl⟩
    | link op' e' rest' =>
      simp only [Links.label_last, Links.label_link, List.append_assoc] at heq
      obtain ⟨-, htail⟩ := code_append_inj heq
      obtain ⟨-, rfl⟩ :=
        Expression.label_append_inj h h'.1 hcs.follows (rest'.follows_label cs') htail
      exact absurd hcs (rest'.not_closes_label cs')
  | link op e rest =>
    cases l' with
    | last op' e' =>
      simp only [Links.label_last, Links.label_link, List.append_assoc] at heq
      obtain ⟨-, htail⟩ := code_append_inj heq
      obtain ⟨-, rfl⟩ :=
        Expression.label_append_inj h.1 h' (rest.follows_label cs) hcs'.follows htail
      exact absurd hcs' (rest.not_closes_label cs)
    | link op' e' rest' =>
      simp only [Links.label_link, List.append_assoc] at heq
      obtain ⟨rfl, htail⟩ := code_append_inj heq
      obtain ⟨rfl, hrest⟩ := Expression.label_append_inj h.1 h'.1 (rest.follows_label cs)
        (rest'.follows_label cs') htail
      obtain ⟨rfl, rfl⟩ := Links.label_append_inj h.2 h'.2 hcs hcs' hrest
      exact ⟨rfl, rfl⟩
termination_by sizeOf l

end

theorem chain_inj {first first' : Expression} {rest rest' : Links}
    (h : (Expression.chain first rest).Over Operand)
    (h' : (Expression.chain first' rest').Over Operand)
    (hname : first.meaning.text ++ rest.text = first'.meaning.text ++ rest'.text) :
    Expression.chain first rest = .chain first' rest' := by
  have hlabel : (Expression.chain first rest).label = (Expression.chain first' rest').label := by
    rw [Expression.label, Expression.meaning, hname, Expression.label, Expression.meaning]
  exact (Expression.label_append_inj h h' closes_nil.follows closes_nil.follows
    (congrArg (· ++ []) hlabel)).1

theorem Derives.over_operand {text : List Char} {e : Expression} (h : Derives text e)
    (hover : e.Over Expression.Unscored) : e.Over Operand := by
  obtain ⟨_, _, _, _, _, _, hspells⟩ := h
  exact hspells.over_operand hover

section

variable [ParserStack]

theorem ofExpression_of_derives {text : String} {e : Expression} (h : Derives (source text) e) :
    ofExpression text =
      if ParserStack.exhausts (source text) then .exhausted (String.ofList (signature text.toList))
      else if e.literals.any isOverlong then .overlong else .parsed e.toFormula := by
  rw [← hasOverlong_of_derives h]
  cases hroom : ParserStack.exhausts (source text) with
  | true => exact ofExpression_exhausted hroom
  | false =>
    cases hlong : hasOverlong (Token.scan (source text)).1 with
    | true => exact ofExpression_overlong hroom hlong
    | false => exact (ofExpression_eq_parsed_iff hroom).2 ⟨hlong, e, h, rfl⟩

/-- Two texts that spell calculations are read as variables, unless the parser has no room for them or
they hold a decimal number that is too long. The variables are the same exactly if the calculations are
the same tree, so if the texts differ in nothing but blanks, comments, parentheses that leave no trace in the tree and suffixes of numbers. -/
theorem ofExpression_calculations {s t : String} {a b : Expression} (hs : Derives (source s) a)
    (ht : Derives (source t) b) (ha : a.IsCalculation) (hb : b.IsCalculation) :
    ∃ m n,
      ofExpression s =
        (if ParserStack.exhausts (source s) then .exhausted (String.ofList (signature s.toList))
        else if a.literals.any isOverlong then .overlong else .parsed (.var m)) ∧
      ofExpression t =
        (if ParserStack.exhausts (source t) then .exhausted (String.ofList (signature t.toList))
        else if b.literals.any isOverlong then .overlong else .parsed (.var n)) ∧
      (m = n ↔ a = b) := by
  have hoverA := hs.over_operand ha.operands
  have hoverB := ht.over_operand hb.operands
  obtain ⟨first, rest, rfl⟩ := ha.chained
  obtain ⟨first', rest', rfl⟩ := hb.chained
  refine ⟨first.meaning.text ++ rest.text, first'.meaning.text ++ rest'.text,
    ofExpression_of_derives hs, ofExpression_of_derives ht, chain_inj hoverA hoverB, ?_⟩
  rintro heq
  obtain ⟨rfl, rfl⟩ := Expression.chain.inj heq
  rfl

end

def groupedDifference : Expression :=
  .chain (.name "A") (.last .minus (.chain (.name "B") (.last .minus (.number "1" 1))))

def differenceChain : Expression :=
  .chain (.name "A") (.link .minus (.name "B") (.last .minus (.number "1" 1)))

theorem ofExpression_calculations_differences :
    (Derives (source "A - (B - 1u)") groupedDifference ∧
      Derives (source "A - B /* b */ - 1") differenceChain ∧
      groupedDifference.IsCalculation ∧ differenceChain.IsCalculation) ∧
    ∃ m n, ofExpression "A - (B - 1u)" = .parsed (.var m) ∧
      ofExpression "A - B /* b */ - 1" = .parsed (.var n) ∧ m ≠ n := by
  have hs : Derives (source "A - (B - 1u)") groupedDifference :=
    parse_iff_derives.1 (by decide +kernel)
  have ht : Derives (source "A - B /* b */ - 1") differenceChain :=
    parse_iff_derives.1 (by decide +kernel)
  have ha : groupedDifference.IsCalculation := by
    refine ⟨⟨_, _, rfl⟩, ?_⟩
    simp [groupedDifference, Expression.Over, Links.Over, Expression.Unscored]
  have hb : differenceChain.IsCalculation := by
    refine ⟨⟨_, _, rfl⟩, ?_⟩
    simp [differenceChain, Expression.Over, Links.Over, Expression.Unscored]
  have hshort : groupedDifference.literals.any isOverlong = false := by decide +kernel
  have hshort' : differenceChain.literals.any isOverlong = false := by decide +kernel
  have hroom : ParserStack.exhausts (source "A - (B - 1u)") = false := by decide +kernel
  have hroom' : ParserStack.exhausts (source "A - B /* b */ - 1") = false := by decide +kernel
  obtain ⟨m, n, hm, hn, hsame⟩ := ofExpression_calculations hs ht ha hb
  rw [hroom, hshort] at hm
  rw [hroom', hshort'] at hn
  exact ⟨⟨hs, ht, ha, hb⟩, m, n, hm, hn, mt hsame.1 (by decide)⟩

end Variability.Condition
