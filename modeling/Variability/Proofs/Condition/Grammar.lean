import Variability.Condition.Numerals

/-!
The grammar of conditions over characters, with blanks between tokens. Nothing in it prefers longer
tokens, and no alternative comes before another one.
-/

set_option autoImplicit false

namespace Variability.Condition

def Gap (cs : List Char) : Prop := ∀ c ∈ cs, isGap c

def Word (cs : List Char) : Prop := cs ≠ [] ∧ ∀ c ∈ cs, isWordChar c

inductive Suffix : List Char → Prop where
  | none : Suffix []
  | letters {gap letters : List Char} (hgap : Gap gap) (hne : letters ≠ [])
      (hletters : ∀ c ∈ letters, isSuffixLetter c) : Suffix (gap ++ letters)

inductive Quoted : List Char → List Char → Prop where
  | nil : Quoted [] []
  | plain {c : Char} {cs text : List Char} (hc : c ∉ ['\'', '\\', '\n', '\r'])
      (h : Quoted cs text) : Quoted (c :: cs) (c :: text)
  | escaped {c : Char} {cs rest text : List Char} (hc : readEscape cs = some (c, rest))
      (h : Quoted rest text) : Quoted ('\\' :: cs) (c :: text)

inductive Arguments : List Char → List String → Prop where
  | none {gap : List Char} (hgap : Gap gap) : Arguments gap []
  | last {before word after : List Char} (hbefore : Gap before) (hword : Word word)
      (hafter : Gap after) : Arguments (before ++ word ++ after) [String.ofList word]
  | more {before word after cs : List Char} {args : List String} (hbefore : Gap before)
      (hword : Word word) (hafter : Gap after) (hne : args ≠ []) (hargs : Arguments cs args) :
      Arguments (before ++ word ++ after ++ ',' :: cs) (String.ofList word :: args)

inductive Join where
  | arithmetic | comparison | conjunction | disjunction
  deriving DecidableEq, Repr

inductive Level where
  | operand | defined | not | join (join : Join)
  deriving DecidableEq, Repr

namespace Join

def joins : Join → Token → Bool
  | .arithmetic => isArithmetic
  | .comparison => isComparison
  | .conjunction => (· = .and)
  | .disjunction => (· = .or)

def below : Join → Level
  | .arithmetic => .not
  | .comparison => .join .arithmetic
  | .conjunction => .join .comparison
  | .disjunction => .join .conjunction

def operators (more : List (Token × Expression)) : List (Operator × Expression) :=
  more.filterMap fun
    | (.op o, e) => some (o, e)
    | _ => none

def node : Join → Expression → List (Token × Expression) → Expression
  | .arithmetic, first, more => .ofChain first (operators more)
  | .comparison, first, more => .ofChain first (operators more)
  | .conjunction, first, more => (more.map (·.2)).foldl .and first
  | .disjunction, first, more => (more.map (·.2)).foldl .or first

end Join

structure Step where
  before : List Char
  symbol : List Char
  token : Token
  after : List Char
  text : List Char
  operand : Expression

def Step.spelling (s : Step) : List Char := s.before ++ s.symbol ++ s.after ++ s.text

structure Step.Joins (join : Join) (s : Step) : Prop where
  before : Gap s.before
  symbol : (s.symbol, s.token) ∈ symbols
  joins : join.joins s.token
  after : Gap s.after

/-- The texts of the conditions of each level. -/
inductive Spells : Level → List Char → Expression → Prop where
  | hexadecimal {x : Char} {digits suffix : List Char} (hx : x = 'x' ∨ x = 'X')
      (hne : digits ≠ []) (hdigits : ∀ c ∈ digits, isHexDigit c) (hsuffix : Suffix suffix) :
      Spells .operand ('0' :: x :: digits ++ suffix)
        (.number (String.ofList ('0' :: x :: digits)) (valueIn 16 digits))
  | decimal {digits suffix : List Char} (hne : digits ≠ [])
      (hdigits : ∀ c ∈ digits, c.isDigit) (hsuffix : Suffix suffix) :
      Spells .operand (digits ++ suffix) (.number (String.ofList digits) (valueIn 10 digits))
  | quoted {body text : List Char} (h : Quoted body text) :
      Spells .operand ('\'' :: body ++ ['\'']) (.quoted (String.ofList text))
  | name {word : List Char} (h : isIdentifier word) :
      Spells .operand word (.name (String.ofList word))
  | call {word gap cs : List Char} {args : List String} (h : isIdentifier word) (hgap : Gap gap)
      (hargs : Arguments cs args) :
      Spells .operand (word ++ gap ++ '(' :: cs ++ [')']) (.call (String.ofList word) args)
  | parentheses {before cs after : List Char} {e : Expression} (hbefore : Gap before)
      (hafter : Gap after) (h : Spells (.join .disjunction) cs e) :
      Spells .operand ('(' :: before ++ cs ++ after ++ [')']) e
  | operand {cs : List Char} {e : Expression} (h : Spells .operand cs e) : Spells .defined cs e
  | defined {gap cs : List Char} {e : Expression} (hgap : Gap gap)
      (hapart : ∀ c ∈ (gap ++ cs).head?, ¬isWordChar c) (h : Spells .defined cs e) :
      Spells .defined ("defined".toList ++ gap ++ cs) (.defined e)
  | positive {cs : List Char} {e : Expression} (h : Spells .defined cs e) : Spells .not cs e
  | not {gap cs : List Char} {e : Expression} (hgap : Gap gap)
      (hunequal : (gap ++ cs).head? ≠ some '=') (h : Spells .not cs e) :
      Spells .not ('!' :: gap ++ cs) (.not e)
  | chain {join : Join} {cs : List Char} {first : Expression} {steps : List Step}
      (hfirst : Spells join.below cs first) (hjoins : ∀ s ∈ steps, s.Joins join)
      (hoperands : ∀ s ∈ steps, Spells join.below s.text s.operand) :
      Spells (.join join) (cs ++ steps.flatMap Step.spelling)
        (join.node first (steps.map fun s => (s.token, s.operand)))

theorem Spells.ofBelow {join : Join} {cs : List Char} {e : Expression} (h : Spells join.below cs e) :
    Spells (.join join) cs e := by
  have hchain : Spells (.join join) (cs ++ ([] : List Step).flatMap Step.spelling)
      (join.node e (([] : List Step).map fun s => (s.token, s.operand))) :=
    .chain h (by simp) (by simp)
  have hnode : join.node e [] = e := by cases join <;> rfl
  rw [List.map_nil, hnode, List.flatMap_nil, List.append_nil] at hchain
  exact hchain

theorem Spells.ofOperand {cs : List Char} {e : Expression} (h : Spells .operand cs e) :
    Spells (.join .disjunction) cs e := by
  have hsum : Spells (.join .arithmetic) cs e := .ofBelow (.positive (.operand h))
  have hcomparison : Spells (.join .comparison) cs e := .ofBelow hsum
  have hconjunction : Spells (.join .conjunction) cs e := .ofBelow hcomparison
  exact .ofBelow hconjunction

/-- The whole text is a condition between blanks. -/
def Derives (text : List Char) (e : Expression) : Prop :=
  ∃ before cs after, text = before ++ cs ++ after ∧ Gap before ∧ Gap after ∧
    Spells (.join .disjunction) cs e

mutual

def Expression.literals : Expression → List String
  | .number spelling _ => [spelling]
  | .quoted _ | .name _ | .call _ _ => []
  | .defined e | .not e => e.literals
  | .chain first rest => first.literals ++ rest.literals
  | .and l r | .or l r => l.literals ++ r.literals

def Links.literals : Links → List String
  | .last _ e => e.literals
  | .link _ e rest => e.literals ++ rest.literals

end

theorem Links.literals_ofList (op : Operator) (e : Expression)
    (more : List (Operator × Expression)) :
    (Links.ofList op e more).literals = e.literals ++ more.flatMap (·.2.literals) := by
  induction more generalizing op e with
  | nil => simp [ofList, literals]
  | cons m more ih => simp [ofList, literals, ih]

theorem Expression.literals_ofChain (first : Expression) (more : List (Operator × Expression)) :
    (ofChain first more).literals = first.literals ++ more.flatMap (·.2.literals) := by
  cases more with
  | nil => simp [ofChain]
  | cons m more => simp [ofChain, literals, Links.literals_ofList]

theorem Expression.literals_foldl {join : Expression → Expression → Expression}
    (hjoin : ∀ l r, (join l r).literals = l.literals ++ r.literals) (first : Expression)
    (more : List Expression) :
    (more.foldl join first).literals = first.literals ++ more.flatMap (·.literals) := by
  induction more generalizing first with
  | nil => simp
  | cons e more ih => simp [ih, hjoin]

namespace Join

theorem literals_operators {more : List (Token × Expression)}
    (h : ∀ m ∈ more, ∃ o, m.1 = .op o) :
    (operators more).flatMap (·.2.literals) = more.flatMap (·.2.literals) := by
  induction more with
  | nil => rfl
  | cons m more ih =>
    obtain ⟨o, ho⟩ := h m List.mem_cons_self
    obtain ⟨t, e⟩ := m
    obtain rfl : t = .op o := ho
    have hrest := ih fun m hm => h m (List.mem_cons_of_mem _ hm)
    rw [operators] at hrest ⊢
    simp [hrest]

theorem exists_op_of_isArithmetic {t : Token} (h : isArithmetic t) : ∃ o, t = .op o := by
  cases t with
  | op o => exact ⟨o, rfl⟩
  | _ => cases h

theorem exists_op_of_isComparison {t : Token} (h : isComparison t) : ∃ o, t = .op o := by
  cases t with
  | op o => exact ⟨o, rfl⟩
  | _ => cases h

theorem literals_node (join : Join) (first : Expression) {more : List (Token × Expression)}
    (h : ∀ m ∈ more, join.joins m.1) :
    (join.node first more).literals = first.literals ++ more.flatMap (·.2.literals) := by
  cases join with
  | arithmetic =>
    have hops := literals_operators fun m hm => exists_op_of_isArithmetic (h m hm)
    rw [node, Expression.literals_ofChain, hops]
  | comparison =>
    have hops := literals_operators fun m hm => exists_op_of_isComparison (h m hm)
    rw [node, Expression.literals_ofChain, hops]
  | conjunction =>
    rw [node, Expression.literals_foldl fun _ _ => by rw [Expression.literals]]
    simp [List.flatMap_map]
  | disjunction =>
    rw [node, Expression.literals_foldl fun _ _ => by rw [Expression.literals]]
    simp [List.flatMap_map]

end Join

def opens (c : Char) : Bool := isWordChar c || c = '\'' || c = '(' || c = '!'

theorem isWordChar_of_isDigit {c : Char} (h : c.isDigit) : isWordChar c := by
  simp [isWordChar, Char.isAlphanum, h]

theorem isIdentifier_word {word : List Char} (h : isIdentifier word) : Word word := by
  cases word with
  | nil => cases h
  | cons c cs =>
    simp only [isIdentifier, Bool.and_eq_true, Bool.or_eq_true, List.all_eq_true,
      decide_eq_true_eq] at h
    refine ⟨by simp, fun d hd => ?_⟩
    rcases List.mem_cons.1 hd with rfl | hd
    · simp only [isWordChar, Char.isAlphanum, Bool.or_eq_true, decide_eq_true_eq]
      rcases h.1.1 with ha | ha
      · exact .inl (.inl ha)
      · exact .inr ha
    · exact h.1.2 d hd

theorem Word.exists_head {word : List Char} (h : Word word) :
    ∃ c, word.head? = some c ∧ isWordChar c := by
  obtain ⟨hne, hall⟩ := h
  cases word with
  | nil => exact absurd rfl hne
  | cons c cs => exact ⟨c, rfl, hall c List.mem_cons_self⟩

theorem Spells.exists_head {level : Level} {cs : List Char} {e : Expression}
    (h : Spells level cs e) : ∃ c, cs.head? = some c ∧ opens c := by
  induction h with
  | hexadecimal => exact ⟨'0', rfl, by decide⟩
  | @decimal digits suffix hne hdigits _ =>
    cases digits with
    | nil => exact absurd rfl hne
    | cons c digits =>
      exact ⟨c, rfl, by simp [opens, isWordChar_of_isDigit (hdigits c List.mem_cons_self)]⟩
  | quoted => exact ⟨'\'', rfl, by decide⟩
  | name h =>
    obtain ⟨c, hc, hword⟩ := (isIdentifier_word h).exists_head
    exact ⟨c, hc, by simp [opens, hword]⟩
  | call h =>
    obtain ⟨c, hc, hword⟩ := (isIdentifier_word h).exists_head
    exact ⟨c, by simp [hc], by simp [opens, hword]⟩
  | parentheses => exact ⟨'(', rfl, by decide⟩
  | operand _ ih => exact ih
  | defined => exact ⟨'d', rfl, by decide⟩
  | positive _ ih => exact ih
  | not => exact ⟨'!', rfl, by decide⟩
  | chain _ _ _ ih _ =>
    obtain ⟨c, hc, hopens⟩ := ih
    exact ⟨c, by simp [hc], hopens⟩

end Variability.Condition
