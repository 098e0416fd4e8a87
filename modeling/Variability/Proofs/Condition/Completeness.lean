import Variability.Proofs.Condition.Levels
import Variability.Proofs.Condition.Numbers

/-!
The readers accept what the grammar spells. The induction is on the derivation; it carries the
tokens of the text, which the readers take as a whole from the front of more tokens unless the next
one goes on with the condition.
-/

set_option autoImplicit false

namespace Variability.Condition

namespace Level

/-- The tokens that no condition of a level goes on with. -/
def ends : Level → Token → Bool
  | .join .arithmetic, t => after t && !isArithmetic t
  | .join .comparison, t => after t && !isArithmetic t && !isComparison t
  | .join .conjunction, t => after t && !isArithmetic t && !isComparison t && t ≠ .and
  | .join .disjunction, t =>
    after t && !isArithmetic t && !isComparison t && t ≠ .and && t ≠ .or
  | _, t => after t
where
  after : Token → Bool
    | .word _ | .lparen => false
    | _ => true

def Ends (level : Level) (ts : List Token) : Prop := ∀ t ∈ ts.head?, level.ends t

/-- The tokens that a condition of a level may begin with; those of the next level are excluded. -/
def begins : Level → Token → Bool
  | .operand, t => t ≠ .not && t ≠ .word "defined".toList
  | .defined, t => t ≠ .not
  | _, _ => true

theorem ends_nil (level : Level) : level.Ends [] := by simp [Ends]

theorem ends_rparen (level : Level) (ts : List Token) : level.Ends (.rparen :: ts) := by
  intro t ht
  obtain rfl := Option.some.inj ht
  cases level with
  | join join => cases join <;> rfl
  | _ => rfl

theorem after_of_ends {level : Level} {t : Token} (h : level.ends t) : ends.after t := by
  cases level with
  | join join => cases join <;> simp_all [ends]
  | _ => exact h

theorem below_ends {join : Join} {t : Token} (h : (Level.join join).ends t) : join.below.ends t := by
  cases join <;> simp_all [ends, Join.below]

theorem not_joins_of_ends {join : Join} {t : Token} (h : (Level.join join).ends t) :
    join.joins t = false := by
  cases join <;> simp_all [ends, Join.joins]

theorem ends_of_joins {join : Join} {t : Token} (h : join.joins t) : join.below.ends t := by
  cases join with
  | arithmetic =>
    obtain ⟨o, rfl⟩ := Join.exists_op_of_isArithmetic h
    rfl
  | comparison =>
    obtain ⟨o, rfl⟩ := Join.exists_op_of_isComparison h
    have ho : o.isComparison = true := h
    simp [ends, ends.after, Join.below, isArithmetic, ho]
  | conjunction =>
    obtain rfl : t = .and := by simpa [Join.joins] using h
    rfl
  | disjunction =>
    obtain rfl : t = .or := by simpa [Join.joins] using h
    rfl

end Level

/-- The tokens of a text on a level of the grammar, with how they are scanned and read. -/
structure Reads (level : Level) (cs : List Char) (e : Expression) (ts : List Token) : Prop where
  scanned : ∀ {rest}, (∀ c ∈ rest.head?, isWordChar c = false) →
    Token.scan (cs ++ rest) = (Token.scan rest).map (ts ++ ·) id
  begins : ∃ t us, ts = t :: us ∧ level.begins t
  read : ∀ {depth rest}, ts.length ≤ depth → level.Ends rest →
    level.reader depth (ts ++ rest) = some (e, rest)
  numerals : ∀ {depth rest}, ts.length ≤ depth → level.Ends rest →
    level.numerals depth (ts ++ rest) = e.literals

theorem begins_of_splitNumber {word rest : List Char} {e : Expression}
    (h : splitNumber word = some (e, rest)) : Level.operand.begins (.word word) := by
  have hne : word ≠ "defined".toList := by
    rintro rfl
    cases h
  rw [Level.begins, Bool.and_eq_true, decide_eq_true_eq, decide_eq_true_eq]
  exact ⟨by simp, fun heq => hne (Token.word.inj heq)⟩

theorem splitNumber_identifier {word : List Char} (h : isIdentifier word) :
    splitNumber word = none := by
  cases word with
  | nil => rfl
  | cons c cs =>
    simp only [isIdentifier, Bool.and_eq_true, Bool.or_eq_true, decide_eq_true_eq] at h
    have hdigit : c.isDigit = false := by
      rcases h.1.1 with ha | rfl
      · exact not_isDigit_of_isAlpha ha
      · decide
    have hzero : c ≠ '0' := by
      rintro rfl
      revert hdigit
      decide
    simp [splitNumber, hdigit, hzero]

theorem begins_of_isIdentifier {word : List Char} (h : isIdentifier word) :
    Level.operand.begins (.word word) := by
  have hne : word ≠ "defined".toList := by
    rintro rfl
    revert h
    decide
  rw [Level.begins, Bool.and_eq_true, decide_eq_true_eq, decide_eq_true_eq]
  exact ⟨by simp, fun heq => hne (Token.word.inj heq)⟩

theorem head_rparen (rest : List Char) : ∀ c ∈ (')' :: rest).head?, isWordChar c = false := by
  intro c hc
  obtain rfl := Option.some.inj hc
  decide

theorem scan_between {before word after rest : List Char} (hbefore : Gap before)
    (hword : Word word) (hafter : Gap after) (hrest : ∀ c ∈ rest.head?, isWordChar c = false) :
    Token.scan (before ++ word ++ after ++ rest) = (Token.scan rest).map (.word word :: ·) id := by
  have hend := head_gap_append hafter (fun _ => not_isWordChar_of_isGap) fun _ => hrest
  rw [List.append_assoc, List.append_assoc, scan_gap hbefore, scan_word hword hend, scan_gap hafter]

theorem exists_arguments {cs : List Char} {args : List String} (h : Arguments cs args) :
    ∃ ts, (∀ rest, Token.scan (cs ++ ')' :: rest) =
        (Token.scan rest).map (ts ++ .rparen :: ·) id) ∧
      (∀ us, arguments (ts ++ .rparen :: us) = some (args, us)) ∧
      (args ≠ [] → ∃ word us, ts = .word word :: us) := by
  induction h with
  | none hgap =>
    exact ⟨[], fun rest => by rw [scan_gap hgap, scan_rparen]; rfl, fun _ => rfl, by simp⟩
  | @last before word after hbefore hword hafter =>
    refine ⟨[.word word], fun rest => ?_, fun _ => rfl, fun _ => ⟨word, [], rfl⟩⟩
    rw [scan_between hbefore hword hafter (head_rparen rest), scan_rparen]
    rfl
  | @more before word after cs args hbefore hword hafter hne _ ih =>
    obtain ⟨ts, hscan, hread, hfirst⟩ := ih
    refine ⟨.word word :: .comma :: ts, fun rest => ?_, fun us => ?_, fun _ => ⟨word, _, rfl⟩⟩
    · have hcomma : ∀ c ∈ (',' :: (cs ++ ')' :: rest)).head?, isWordChar c = false := by
        intro c hc
        obtain rfl := Option.some.inj hc
        decide
      rw [List.append_assoc, List.cons_append, scan_between hbefore hword hafter hcomma, scan_comma,
        hscan]
      rfl
    · obtain ⟨first, vs, rfl⟩ := hfirst hne
      have hmore : moreArguments (.comma :: .word first :: vs ++ .rparen :: us) =
          some (args, us) := hread us
      simp only [List.cons_append] at hmore ⊢
      rw [arguments, hmore]
      rfl

namespace Reads

theorem number_attached {body letters : List Char} {spelling : String} {value : Nat}
    (hword : Word body) (hletters : ∀ c ∈ letters, isSuffixLetter c)
    (hsplit : splitNumber (body ++ letters) = some (.number spelling value, letters)) :
    Reads .operand (body ++ letters) (.number spelling value) [.word (body ++ letters)] := by
  have hwhole : Word (body ++ letters) := by
    refine ⟨by simp [hword.1], fun c hc => ?_⟩
    rcases List.mem_append.1 hc with hc | hc
    · exact hword.2 c hc
    · exact isWordChar_of_isSuffixLetter (hletters c hc)
  refine ⟨fun hrest => scan_word hwhole hrest, ⟨_, [], rfl, begins_of_splitNumber hsplit⟩,
    fun {depth rest} _ hends => ?_, fun _ _ => ?_⟩
  · have hnumber : number (body ++ letters) rest = some (.number spelling value, rest) := by
      rw [number, hsplit]
      cases letters with
      | cons c letters => simpa using hletters
      | nil =>
        cases rest with
        | nil => rfl
        | cons t rest =>
          have ht := Level.after_of_ends (hends t rfl)
          cases t with
          | word w => cases ht
          | _ => rfl
    simp [Level.reader, operand, hnumber]
  · simp [Level.numerals, operandNumerals, wordNumeral, hsplit, Expression.literals]

theorem number_apart {body gap letters : List Char} {spelling : String} {value : Nat}
    (hword : Word body) (hgap : Gap gap) (hne : gap ≠ [])
    (hlettersNe : letters ≠ []) (hletters : ∀ c ∈ letters, isSuffixLetter c)
    (hsplit : splitNumber body = some (.number spelling value, [])) :
    Reads .operand (body ++ (gap ++ letters)) (.number spelling value)
      [.word body, .word letters] := by
  have hsuffix : Word letters :=
    ⟨hlettersNe, fun c hc => isWordChar_of_isSuffixLetter (hletters c hc)⟩
  refine ⟨fun {rest} hrest => ?_, ⟨_, [.word letters], rfl, begins_of_splitNumber hsplit⟩,
    fun {depth rest} _ _ => ?_, fun _ _ => ?_⟩
  · have hapart : ∀ c ∈ (gap ++ (letters ++ rest)).head?, isWordChar c = false :=
      head_gap_append hgap (fun _ => not_isWordChar_of_isGap) fun h => absurd h hne
    rw [List.append_assoc, List.append_assoc, scan_word hword hapart, scan_gap hgap,
      scan_word hsuffix hrest]
    rfl
  · have hnumber : number body (.word letters :: rest) = some (.number spelling value, rest) := by
      simpa [number, hsplit] using hletters
    simp [Level.reader, operand, hnumber]
  · simp [Level.numerals, operandNumerals, wordNumeral, hsplit, Expression.literals]

theorem number {body suffix : List Char} {spelling : String} {value : Nat} (hword : Word body)
    (hsplit : ∀ letters, (∀ c ∈ letters, isSuffixLetter c) →
      splitNumber (body ++ letters) = some (.number spelling value, letters))
    (hsuffix : Suffix suffix) : ∃ ts, Reads .operand (body ++ suffix) (.number spelling value) ts := by
  have hnone : ∀ c ∈ ([] : List Char), isSuffixLetter c := by simp
  cases hsuffix with
  | none => exact ⟨_, number_attached hword hnone (hsplit [] hnone)⟩
  | @letters gap letters hgap hne hletters =>
    by_cases hempty : gap = []
    · subst hempty
      exact ⟨_, number_attached hword hletters (hsplit letters hletters)⟩
    · have hbody := hsplit [] hnone
      rw [List.append_nil] at hbody
      exact ⟨_, number_apart hword hgap hempty hne hletters hbody⟩

theorem quoted {body text : List Char} (h : Quoted body text) :
    Reads .operand ('\'' :: body ++ ['\'']) (.quoted (String.ofList text)) [.quoted text] := by
  refine ⟨fun {rest} _ => ?_, ⟨_, [], rfl, rfl⟩, fun _ _ => rfl, fun _ _ => ?_⟩
  · have hspelling : '\'' :: body ++ ['\''] ++ rest = '\'' :: (body ++ '\'' :: rest) := by simp
    rw [hspelling, scan_quoted h]
    rfl
  · simp [Level.numerals, operandNumerals, Expression.literals]

theorem name {word : List Char} (h : isIdentifier word) :
    Reads .operand word (.name (String.ofList word)) [.word word] := by
  refine ⟨fun hrest => scan_word (isIdentifier_word h) hrest,
    ⟨_, [], rfl, begins_of_isIdentifier h⟩, fun {depth rest} _ hends => ?_, fun _ _ => ?_⟩
  · have hidentifier : identifier word rest = some (.name (String.ofList word), rest) := by
      simp only [identifier, if_pos h]
      split
      · cases Level.after_of_ends (hends .lparen rfl)
      · rfl
    simp [Level.reader, operand, Condition.number, splitNumber_identifier h, hidentifier]
  · simp [Level.numerals, operandNumerals, wordNumeral, splitNumber_identifier h,
      Expression.literals]

theorem call {word gap cs : List Char} {args : List String} (h : isIdentifier word)
    (hgap : Gap gap) (hargs : Arguments cs args) :
    ∃ ts, Reads .operand (word ++ gap ++ '(' :: cs ++ [')'])
      (.call (String.ofList word) args) ts := by
  obtain ⟨ts, hscan, hread, _⟩ := exists_arguments hargs
  refine ⟨.word word :: .lparen :: (ts ++ [.rparen]), fun {rest} _ => ?_,
    ⟨_, _, rfl, begins_of_isIdentifier h⟩, fun {depth rest} _ _ => ?_, fun _ _ => ?_⟩
  · have hspelling : word ++ gap ++ '(' :: cs ++ [')'] ++ rest =
        word ++ (gap ++ ('(' :: (cs ++ ')' :: rest))) := by simp
    have hend : ∀ c ∈ (gap ++ ('(' :: (cs ++ ')' :: rest))).head?, isWordChar c = false := by
      refine head_gap_append hgap (fun _ => not_isWordChar_of_isGap) fun _ c hc => ?_
      obtain rfl := Option.some.inj hc
      decide
    rw [hspelling, scan_word (isIdentifier_word h) hend, scan_gap hgap, scan_lparen, hscan]
    simp [Prod.map]
  · have hidentifier : identifier word (.lparen :: (ts ++ [.rparen]) ++ rest) =
        some (.call (String.ofList word) args, rest) := by
      simp [identifier, h, hread]
    have hnumber : Condition.number word (.lparen :: (ts ++ [.rparen]) ++ rest) = none := by
      rw [Condition.number, splitNumber_identifier h]
    rw [Level.reader, List.cons_append, operand, hnumber, hidentifier]
    rfl
  · simp [Level.numerals, operandNumerals, wordNumeral, splitNumber_identifier h,
      Expression.literals]

theorem parentheses {before cs after : List Char} {e : Expression} {ts : List Token}
    (hbefore : Gap before) (hafter : Gap after) (h : Reads (.join .disjunction) cs e ts) :
    Reads .operand ('(' :: before ++ cs ++ after ++ [')']) e (.lparen :: (ts ++ [.rparen])) := by
  refine ⟨fun {rest} _ => ?_, ⟨_, _, rfl, rfl⟩, fun {depth rest} hdepth _ => ?_,
    fun {depth rest} hdepth _ => ?_⟩
  · have hspelling : '(' :: before ++ cs ++ after ++ [')'] ++ rest =
        '(' :: (before ++ (cs ++ (after ++ ')' :: rest))) := by simp
    have hend := head_gap_append hafter (fun _ => not_isWordChar_of_isGap)
      fun _ => head_rparen rest
    rw [hspelling, scan_lparen, scan_gap hbefore, h.scanned hend, scan_gap hafter, scan_rparen]
    simp [Prod.map]
  · have htokens : .lparen :: (ts ++ [.rparen]) ++ rest = .lparen :: (ts ++ .rparen :: rest) := by
      simp
    cases depth with
    | zero => simp at hdepth
    | succ depth =>
      have hinner : expression (depth + 1) (ts ++ .rparen :: rest) = some (e, .rparen :: rest) :=
        h.read (by simp at hdepth; omega) (Level.ends_rparen _ rest)
      rw [htokens, Level.reader, operand, hinner]
  · cases depth with
    | zero => simp at hdepth
    | succ depth =>
      have hinner : Condition.numerals (depth + 1) (ts ++ .rparen :: rest) = e.literals :=
        h.numerals (by simp at hdepth; omega) (Level.ends_rparen _ rest)
      simp [Level.numerals, operandNumerals, hinner]

theorem toDefined {cs : List Char} {e : Expression} {ts : List Token}
    (h : Reads .operand cs e ts) : Reads .defined cs e ts := by
  obtain ⟨t, us, rfl, hbegins⟩ := h.begins
  rw [Level.begins, Bool.and_eq_true, decide_eq_true_eq, decide_eq_true_eq] at hbegins
  obtain ⟨hnot, hdefined⟩ := hbegins
  refine ⟨h.scanned, ⟨t, us, rfl, by simpa [Level.begins] using hnot⟩,
    fun {depth rest} hdepth hends => ?_, fun {depth rest} hdepth hends => ?_⟩
  · have hread := h.read hdepth hends
    rw [Level.reader, List.cons_append, definedOperand, if_neg hdefined]
    exact hread
  · have hnumerals := h.numerals hdepth hends
    rw [Level.numerals, List.cons_append, definedNumerals, if_neg fun hkeyword => hdefined hkeyword.1]
    exact hnumerals

theorem defined {gap cs : List Char} {e : Expression} {ts : List Token} (hgap : Gap gap)
    (hapart : ∀ c ∈ (gap ++ cs).head?, ¬isWordChar c) (hne : cs ≠ [])
    (h : Reads .defined cs e ts) :
    Reads .defined ("defined".toList ++ gap ++ cs) (.defined e)
      (.word "defined".toList :: ts) := by
  have hkeyword : Word "defined".toList := ⟨by simp, List.all_eq_true.1 (by decide)⟩
  refine ⟨fun {rest} hrest => ?_, ⟨_, _, rfl, by simp [Level.begins]⟩,
    fun {depth rest} hdepth hends => ?_, fun {depth rest} hdepth hends => ?_⟩
  · have hend : ∀ c ∈ (gap ++ (cs ++ rest)).head?, isWordChar c = false := by
      intro c hc
      obtain ⟨d, ds, hds⟩ := List.exists_cons_of_ne_nil (List.append_ne_nil_of_right_ne_nil gap hne)
      rw [← List.append_assoc, hds] at hc
      simpa using hapart c (by rwa [hds])
    rw [List.append_assoc, List.append_assoc, scan_word hkeyword hend, scan_gap hgap,
      h.scanned hrest]
    rfl
  · have hlength : ts.length ≤ depth := Nat.le_of_succ_le hdepth
    have hread : definedOperand (expression depth) (ts ++ rest) = some (e, rest) := h.read hlength hends
    rw [Level.reader, List.cons_append, definedOperand, if_pos rfl, hread]
    rfl
  · have hlength : ts.length ≤ depth := Nat.le_of_succ_le hdepth
    have hread : definedOperand (expression depth) (ts ++ rest) = some (e, rest) := h.read hlength hends
    have hnumerals := h.numerals hlength hends
    rw [Level.numerals, List.cons_append, definedNumerals, if_pos ⟨rfl, by rw [hread]; rfl⟩]
    exact hnumerals

theorem toNot {cs : List Char} {e : Expression} {ts : List Token} (h : Reads .defined cs e ts) :
    Reads .not cs e ts := by
  obtain ⟨t, us, rfl, hbegins⟩ := h.begins
  have hnot : t ≠ .not := by simpa [Level.begins] using hbegins
  refine ⟨h.scanned, ⟨t, us, rfl, rfl⟩, fun {depth rest} hdepth hends => ?_,
    fun {depth rest} hdepth hends => ?_⟩
  · have hread := h.read hdepth hends
    rw [Level.reader, List.cons_append, unary, if_neg hnot]
    exact hread
  · have hnumerals := h.numerals hdepth hends
    rw [Level.numerals, List.cons_append, unaryNumerals, if_neg fun hmark => hnot hmark.1]
    exact hnumerals

theorem not {gap cs : List Char} {e : Expression} {ts : List Token} (hgap : Gap gap)
    (hopens : ∃ c, cs.head? = some c ∧ opens c) (h : Reads .not cs e ts) :
    Reads .not ('!' :: gap ++ cs) (.not e) (.not :: ts) := by
  obtain ⟨c, hc, hopens⟩ := hopens
  refine ⟨fun {rest} hrest => ?_, ⟨_, _, rfl, rfl⟩, fun {depth rest} hdepth hends => ?_,
    fun {depth rest} hdepth hends => ?_⟩
  · have hspelling : '!' :: gap ++ cs ++ rest = ['!'] ++ (gap ++ (cs ++ rest)) := by simp
    have hend : ∀ d ∈ (gap ++ (cs ++ rest)).head?, goesOn d = false := by
      refine head_gap_append hgap (fun _ => not_goesOn_of_isGap) fun _ d hd => ?_
      rw [List.head?_append, hc] at hd
      obtain rfl := Option.some.inj hd
      exact not_goesOn_of_opens hopens
    have hsymbol : (['!'], Token.not) ∈ symbols := by decide
    rw [hspelling, scan_symbol hsymbol hend, scan_gap hgap, h.scanned hrest]
    rfl
  · have hlength : ts.length ≤ depth := Nat.le_of_succ_le hdepth
    have hread : unary (expression depth) (ts ++ rest) = some (e, rest) := h.read hlength hends
    rw [Level.reader, List.cons_append, unary, if_pos rfl, hread]
    rfl
  · have hlength : ts.length ≤ depth := Nat.le_of_succ_le hdepth
    have hread : unary (expression depth) (ts ++ rest) = some (e, rest) := h.read hlength hends
    have hnumerals := h.numerals hlength hends
    rw [Level.numerals, List.cons_append, unaryNumerals, if_pos ⟨rfl, by rw [hread]; rfl⟩]
    exact hnumerals

end Reads

theorem Step.head_spelling {join : Join} {s : Step} (h : s.Joins join) (rest : List Char) :
    ∀ c ∈ (s.spelling ++ rest).head?, isWordChar c = false := by
  have hspelling : s.spelling ++ rest = s.before ++ (s.symbol ++ (s.after ++ (s.text ++ rest))) := by
    simp [Step.spelling]
  rw [hspelling]
  refine head_gap_append h.before (fun _ => not_isWordChar_of_isGap) fun _ c hc => ?_
  have hmem := h.symbol
  cases hsymbol : s.symbol with
  | nil => exact absurd hsymbol (symbols_ne_nil _ hmem)
  | cons d ds =>
    rw [hsymbol] at hc hmem
    exact (symbols_head hmem hc).1

theorem head_steps {join : Join} {more : List Step} (h : ∀ s ∈ more, s.Joins join)
    {rest : List Char} (hrest : ∀ c ∈ rest.head?, isWordChar c = false) :
    ∀ c ∈ (more.flatMap Step.spelling ++ rest).head?, isWordChar c = false := by
  cases more with
  | nil => exact hrest
  | cons s more =>
    rw [List.flatMap_cons, List.append_assoc]
    exact Step.head_spelling (h s List.mem_cons_self) _

structure ReadsSteps (join : Join) (more : List Step) (ts : List Token) : Prop where
  scanned : ∀ {rest}, (∀ c ∈ rest.head?, isWordChar c = false) →
    Token.scan (more.flatMap Step.spelling ++ rest) = (Token.scan rest).map (ts ++ ·) id
  joined : ∀ {t us}, ts = t :: us → join.joins t ∧
    ∀ {depth rest}, ts.length ≤ depth → (Level.join join).Ends rest →
      (join.below.reader depth (us ++ rest)).isSome
  read : ∀ {depth fuel rest}, ts.length ≤ depth → ts.length ≤ fuel → (Level.join join).Ends rest →
    steps join.joins (join.below.reader depth) fuel (ts ++ rest) =
      some (more.map fun s => (s.token, s.operand), rest)
  numerals : ∀ {depth fuel rest}, ts.length ≤ depth → ts.length ≤ fuel →
    (Level.join join).Ends rest →
    laterNumerals join.joins (join.below.reader depth) (join.below.numerals depth) fuel
      (ts ++ rest) = more.flatMap (·.operand.literals)

namespace ReadsSteps

theorem ends_below {join : Join} {more : List Step} {ts rest : List Token}
    (h : ReadsSteps join more ts) (hends : (Level.join join).Ends rest) :
    join.below.Ends (ts ++ rest) := by
  intro t ht
  cases ts with
  | nil => exact Level.below_ends (hends t ht)
  | cons u us =>
    obtain rfl := Option.some.inj ht
    exact Level.ends_of_joins (h.joined rfl).1

theorem nil (join : Join) : ReadsSteps join [] [] := by
  refine ⟨fun _ => rfl, nofun, fun {depth fuel rest} _ _ hends => ?_,
    fun {depth fuel rest} _ _ hends => ?_⟩
  · cases rest with
    | nil => exact steps_nil _ _ fuel
    | cons t rest => exact steps_cons_of_not (Level.not_joins_of_ends (hends t rfl)) _ fuel rest
  · cases fuel with
    | zero => rfl
    | succ fuel =>
      cases rest with
      | nil => rfl
      | cons t rest =>
        have hjoins := Level.not_joins_of_ends (hends t rfl)
        simp [laterNumerals, hjoins]

theorem cons {join : Join} {s : Step} {more : List Step} {ts us : List Token}
    (hs : s.Joins join) (hmore : ∀ s ∈ more, s.Joins join)
    (hopens : ∃ c, s.text.head? = some c ∧ opens c) (hread : Reads join.below s.text s.operand us)
    (h : ReadsSteps join more ts) : ReadsSteps join (s :: more) (s.token :: (us ++ ts)) := by
  have hoperand : ∀ {depth rest}, (s.token :: (us ++ ts)).length ≤ depth →
      (Level.join join).Ends rest →
      join.below.reader depth (us ++ ts ++ rest) = some (s.operand, ts ++ rest) := by
    intro depth rest hdepth hends
    rw [List.append_assoc]
    simp only [List.length_cons, List.length_append] at hdepth
    exact hread.read (by omega) (h.ends_below hends)
  refine ⟨fun {rest} hrest => ?_, fun heq => ?_, fun {depth fuel rest} hdepth hfuel hends => ?_,
    fun {depth fuel rest} hdepth hfuel hends => ?_⟩
  · obtain ⟨c, hc, hopens⟩ := hopens
    have hspelling : (s :: more).flatMap Step.spelling ++ rest = s.before ++ (s.symbol ++
        (s.after ++ (s.text ++ (more.flatMap Step.spelling ++ rest)))) := by
      simp [Step.spelling]
    have hend : ∀ d ∈ (s.after ++ (s.text ++ (more.flatMap Step.spelling ++ rest))).head?,
        goesOn d = false := by
      refine head_gap_append hs.after (fun _ => not_goesOn_of_isGap) fun _ d hd => ?_
      rw [List.head?_append, hc] at hd
      obtain rfl := Option.some.inj hd
      exact not_goesOn_of_opens hopens
    rw [hspelling, scan_gap hs.before, scan_symbol hs.symbol hend, scan_gap hs.after,
      hread.scanned (head_steps hmore hrest), h.scanned hrest]
    simp [Prod.map]
  · obtain ⟨rfl, rfl⟩ := List.cons.inj heq
    exact ⟨hs.joins, fun hdepth hends => by rw [hoperand hdepth hends]; rfl⟩
  · have hrest := hoperand hdepth hends
    simp only [List.length_cons, List.length_append] at hdepth hfuel
    cases fuel with
    | zero => omega
    | succ fuel =>
      rw [List.cons_append, steps, if_pos hs.joins, hrest]
      simp [h.read (by omega : ts.length ≤ depth) (by omega : ts.length ≤ fuel) hends]
  · have hrest := hoperand hdepth hends
    simp only [List.length_cons, List.length_append] at hdepth hfuel
    have hliterals := hread.numerals (by omega : us.length ≤ depth) (h.ends_below hends)
    cases fuel with
    | zero => omega
    | succ fuel =>
      rw [List.cons_append, laterNumerals, if_pos hs.joins, hrest, List.append_assoc, hliterals]
      simp [h.numerals (by omega : ts.length ≤ depth) (by omega : ts.length ≤ fuel) hends]

theorem chainNumerals_eq {join : Join} {more : List Step} {ts us rest : List Token}
    {first : Expression} {depth : Nat} (h : ReadsSteps join more ts) (hdepth : ts.length ≤ depth)
    (hends : (Level.join join).Ends rest)
    (hread : join.below.reader depth us = some (first, ts ++ rest)) :
    chainNumerals join.joins (join.below.reader depth) (join.below.numerals depth) us =
      join.below.numerals depth us ++ more.flatMap (·.operand.literals) := by
  rw [chainNumerals, hread]
  -- later operands are evaluated only if the first one of them can be read
  cases ts with
  | nil =>
    have hnone : more.flatMap (·.operand.literals) = [] :=
      (h.numerals (Nat.zero_le depth) (Nat.le_refl 0) (Level.ends_nil _)).symm
    rw [hnone, List.append_nil]
    cases rest with
    | nil => rfl
    | cons t rest => simp [Level.not_joins_of_ends (hends t rfl)]
  | cons t ts =>
    obtain ⟨ht, hsome⟩ := h.joined rfl
    have hnext := hsome hdepth hends
    have hlater := h.numerals hdepth
      (by simp : (t :: ts).length ≤ (ts ++ rest).length + 1) hends
    rw [List.cons_append] at hlater
    simp only [List.cons_append, ht, hnext, and_self, if_true, hlater]

end ReadsSteps

theorem Reads.chain {join : Join} {cs : List Char} {first : Expression} {more : List Step}
    {us ts : List Token} (hmore : ∀ s ∈ more, s.Joins join)
    (hfirst : Reads join.below cs first us) (h : ReadsSteps join more ts) :
    Reads (.join join) (cs ++ more.flatMap Step.spelling)
      (join.node first (more.map fun s => (s.token, s.operand))) (us ++ ts) := by
  obtain ⟨t, vs, rfl, _⟩ := hfirst.begins
  refine ⟨fun {rest} hrest => ?_, ⟨t, vs ++ ts, rfl, rfl⟩, fun {depth rest} hdepth hends => ?_,
    fun {depth rest} hdepth hends => ?_⟩
  · rw [List.append_assoc, hfirst.scanned (head_steps hmore hrest), h.scanned hrest]
    simp [Prod.map]
  · rw [List.length_append] at hdepth
    have hread := hfirst.read (by omega : (t :: vs).length ≤ depth) (h.ends_below hends)
    rw [Level.reader_join, List.append_assoc]
    exact joinOf_of_steps hread (h.read (by omega) (by simp) hends)
  · rw [List.length_append] at hdepth
    have hread := hfirst.read (by omega : (t :: vs).length ≤ depth) (h.ends_below hends)
    have hliterals := hfirst.numerals (by omega : (t :: vs).length ≤ depth) (h.ends_below hends)
    have hjoins : ∀ m ∈ more.map fun s => (s.token, s.operand), join.joins m.1 := by
      intro m hm
      obtain ⟨s, hs, rfl⟩ := List.mem_map.1 hm
      exact (hmore s hs).joins
    rw [Level.numerals_join, Join.literals_node join first hjoins, List.append_assoc,
      List.flatMap_map, ← hliterals]
    exact h.chainNumerals_eq (by omega) hends hread

theorem exists_readsSteps {join : Join} {more : List Step} (hjoins : ∀ s ∈ more, s.Joins join)
    (hopens : ∀ s ∈ more, ∃ c, s.text.head? = some c ∧ opens c)
    (hreads : ∀ s ∈ more, ∃ ts, Reads join.below s.text s.operand ts) :
    ∃ ts, ReadsSteps join more ts := by
  induction more with
  | nil => exact ⟨[], .nil join⟩
  | cons s more ih =>
    have hrest : ∀ t ∈ more, t ∈ s :: more := fun t ht => List.mem_cons_of_mem s ht
    obtain ⟨ts, hmore⟩ := ih (fun t ht => hjoins t (hrest t ht))
      (fun t ht => hopens t (hrest t ht)) fun t ht => hreads t (hrest t ht)
    obtain ⟨us, hs⟩ := hreads s List.mem_cons_self
    exact ⟨_, .cons (hjoins s List.mem_cons_self) (fun t ht => hjoins t (hrest t ht))
      (hopens s List.mem_cons_self) hs hmore⟩

/-- Each text of the grammar has tokens that are read as its condition. -/
theorem Spells.exists_reads {level : Level} {cs : List Char} {e : Expression}
    (h : Spells level cs e) : ∃ ts, Reads level cs e ts := by
  induction h with
  | hexadecimal hx hne hdigits hsuffix =>
    refine Reads.number ⟨by simp, fun c hc => ?_⟩
      (fun _ => splitNumber_hexadecimal hx hne hdigits) hsuffix
    rcases List.mem_cons.1 hc with rfl | hc
    · decide
    · rcases List.mem_cons.1 hc with rfl | hc
      · rcases hx with rfl | rfl <;> decide
      · exact isWordChar_of_isHexDigit (hdigits c hc)
  | decimal hne hdigits hsuffix =>
    exact Reads.number ⟨hne, fun c hc => isWordChar_of_isDigit (hdigits c hc)⟩
      (fun _ => splitNumber_decimal hne hdigits) hsuffix
  | quoted h => exact ⟨_, Reads.quoted h⟩
  | name h => exact ⟨_, Reads.name h⟩
  | call h hgap hargs => exact Reads.call h hgap hargs
  | parentheses hbefore hafter _ ih =>
    obtain ⟨ts, hread⟩ := ih
    exact ⟨_, hread.parentheses hbefore hafter⟩
  | operand _ ih =>
    obtain ⟨ts, hread⟩ := ih
    exact ⟨ts, hread.toDefined⟩
  | defined hgap hapart h ih =>
    obtain ⟨ts, hread⟩ := ih
    obtain ⟨c, hc, _⟩ := h.exists_head
    exact ⟨_, hread.defined hgap hapart (by rintro rfl; cases hc)⟩
  | positive _ ih =>
    obtain ⟨ts, hread⟩ := ih
    exact ⟨ts, hread.toNot⟩
  | not hgap _ h ih =>
    obtain ⟨ts, hread⟩ := ih
    exact ⟨_, hread.not hgap h.exists_head⟩
  | @chain join cs first more _ hjoins hoperands ihfirst ihmore =>
    obtain ⟨us, hfirst⟩ := ihfirst
    obtain ⟨ts, hmore⟩ :=
      exists_readsSteps hjoins (fun s hs => (hoperands s hs).exists_head) ihmore
    exact ⟨_, hfirst.chain hjoins hmore⟩

theorem parse_of_derives {text : List Char} {e : Expression} (h : Derives text e) :
    parse text = some e ∧
      numerals ((Token.scan text).1.length + 1) (Token.scan text).1 = e.literals := by
  obtain ⟨before, cs, after, rfl, hbefore, hafter, hspells⟩ := h
  obtain ⟨ts, hread⟩ := hspells.exists_reads
  have hend : ∀ c ∈ after.head?, isWordChar c = false :=
    fun c hc => not_isWordChar_of_isGap (hafter c (List.mem_of_mem_head? hc))
  have hscan : Token.scan (before ++ cs ++ after) = (ts, []) := by
    rw [List.append_assoc, scan_gap hbefore, hread.scanned hend, scan_of_gap hafter]
    simp [Prod.map]
  have hexpression := hread.read (Nat.le_refl _) (Level.ends_nil _)
  have hnumerals := hread.numerals (Nat.le_refl _) (Level.ends_nil _)
  rw [List.append_nil] at hexpression hnumerals
  constructor
  · rw [parse, hscan]
    simp only [Level.reader] at hexpression
    simp [hexpression]
  · rw [hscan]
    exact hnumerals

end Variability.Condition
