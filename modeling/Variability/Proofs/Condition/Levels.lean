import Variability.Proofs.Condition.Grammar

set_option autoImplicit false

namespace Variability.Condition

def steps (joins : Token → Bool) (sub : Reader Expression) :
    Nat → Reader (List (Token × Expression))
  | fuel + 1, t :: ts =>
    match if joins t then sub ts else none with
    | some (e, rest) => (steps joins sub fuel rest).map fun (more, rest) => ((t, e) :: more, rest)
    | none => some ([], t :: ts)
  | _, ts => some ([], ts)

theorem steps_nil (joins : Token → Bool) (sub : Reader Expression) (fuel : Nat) :
    steps joins sub fuel [] = some ([], []) := by
  cases fuel <;> rfl

theorem steps_cons_of_not {joins : Token → Bool} {t : Token} (h : joins t = false)
    (sub : Reader Expression) (fuel : Nat) (ts : List Token) :
    steps joins sub fuel (t :: ts) = some ([], t :: ts) := by
  cases fuel with
  | zero => rfl
  | succ fuel => simp [steps, h]

def joinOf (join : Join) (sub : Reader Expression) : Reader Expression := fun ts => do
  let (first, ts) ← sub ts
  let (more, ts) ← steps join.joins sub ts.length ts
  some (join.node first more, ts)

theorem joinOf_of_steps {join : Join} {sub : Reader Expression} {ts rest rest' : List Token}
    {first : Expression} {more : List (Token × Expression)} (hfirst : sub ts = some (first, rest))
    (hmore : steps join.joins sub rest.length rest = some (more, rest')) :
    joinOf join sub ts = some (join.node first more, rest') := by
  simp [joinOf, hfirst, hmore]

theorem exists_of_joinOf {join : Join} {sub : Reader Expression} {ts rest' : List Token}
    {e : Expression} (h : joinOf join sub ts = some (e, rest')) :
    ∃ first rest more, sub ts = some (first, rest) ∧
      steps join.joins sub rest.length rest = some (more, rest') ∧ e = join.node first more := by
  obtain ⟨⟨first, rest⟩, hfirst, h⟩ := Option.bind_eq_some_iff.1 h
  obtain ⟨⟨more, rest''⟩, hmore, h⟩ := Option.bind_eq_some_iff.1 h
  obtain ⟨rfl, rfl⟩ := Prod.mk.inj (Option.some.inj h)
  exact ⟨first, rest, more, hfirst, hmore, rfl⟩

theorem links_eq_steps {level : Operator → Bool} {joins : Token → Bool}
    (hop : ∀ o, joins (.op o) = level o) (hother : ∀ t, joins t → ∃ o, t = .op o)
    (sub : Reader Expression) (fuel : Nat) (ts : List Token) :
    links level sub fuel ts =
      (steps joins sub fuel ts).map fun (more, rest) => (Join.operators more, rest) := by
  induction fuel generalizing ts with
  | zero => cases ts <;> rfl
  | succ fuel ih =>
    cases ts with
    | nil => rfl
    | cons t ts =>
      by_cases ht : joins t
      · obtain ⟨o, rfl⟩ := hother t ht
        rw [hop] at ht
        cases hsub : sub ts with
        | none => simp [links, steps, hop, ht, hsub, Join.operators]
        | some r =>
          obtain ⟨e, rest⟩ := r
          simp only [links, steps, hop, ht, hsub, if_true, ih, Option.map_map]
          cases steps joins sub fuel rest <;> simp [Join.operators]
      · have hlinks : links level sub (fuel + 1) (t :: ts) = some ([], t :: ts) := by
          cases t with
          | op o =>
            rw [hop] at ht
            simp [links, ht]
          | _ => rfl
        rw [hlinks, steps_cons_of_not (by simpa using ht)]
        rfl

theorem operandsAfter_eq_steps (connective : Token) (sub : Reader Expression) (fuel : Nat)
    (ts : List Token) :
    operandsAfter connective sub fuel ts =
      (steps (· = connective) sub fuel ts).map fun (more, rest) => (more.map (·.2), rest) := by
  induction fuel generalizing ts with
  | zero => cases ts <;> rfl
  | succ fuel ih =>
    cases ts with
    | nil => rfl
    | cons t ts =>
      simp only [operandsAfter, steps, decide_eq_true_eq]
      cases hsub : if t = connective then sub ts else none with
      | none => rfl
      | some r =>
        obtain ⟨e, rest⟩ := r
        simp only [ih, Option.map_map]
        cases steps (· = connective) sub fuel rest <;> rfl

theorem chain_eq_joinOf (join : Join) {level : Operator → Bool}
    (hop : ∀ o, join.joins (.op o) = level o) (hother : ∀ t, join.joins t → ∃ o, t = .op o)
    (hnode : ∀ first more, join.node first more = .ofChain first (Join.operators more))
    (sub : Reader Expression) : chain level sub = joinOf join sub := by
  funext ts
  rw [chain, joinOf]
  cases sub ts with
  | none => rfl
  | some r =>
    obtain ⟨first, rest⟩ := r
    have hlinks := links_eq_steps hop hother sub rest.length rest
    dsimp only [Option.bind_eq_bind, Option.bind_some]
    rw [hlinks]
    cases steps join.joins sub rest.length rest with
    | none => rfl
    | some r => simp [hnode]

theorem joined_eq_joinOf (join : Join) {connective : Token}
    {build : Expression → Expression → Expression} (hjoins : join.joins = (· = connective))
    (hnode : ∀ first more, join.node first more = (more.map (·.2)).foldl build first)
    (sub : Reader Expression) : joined connective build sub = joinOf join sub := by
  funext ts
  rw [joined, joinOf]
  cases sub ts with
  | none => rfl
  | some r =>
    obtain ⟨first, rest⟩ := r
    dsimp only [Option.bind_eq_bind, Option.bind_some]
    rw [operandsAfter_eq_steps, hjoins]
    cases steps (· = connective) sub rest.length rest with
    | none => rfl
    | some r => simp [hnode]

namespace Level

def reader (depth : Nat) : Level → Reader Expression
  | .operand => Condition.operand (expression depth)
  | .defined => definedOperand (expression depth)
  | .not => unary (expression depth)
  | .join .arithmetic => chain (fun o => !o.isComparison) (unary (expression depth))
  | .join .comparison =>
    chain Operator.isComparison <| chain (fun o => !o.isComparison) (unary (expression depth))
  | .join .conjunction =>
    joined .and .and <| chain Operator.isComparison <|
      chain (fun o => !o.isComparison) (unary (expression depth))
  | .join .disjunction => expression (depth + 1)

theorem reader_join (depth : Nat) (join : Join) :
    reader depth (.join join) = joinOf join (reader depth join.below) := by
  cases join with
  | arithmetic =>
    exact chain_eq_joinOf .arithmetic (fun _ => rfl) (fun _ => Join.exists_op_of_isArithmetic)
      (fun _ _ => rfl) _
  | comparison =>
    exact chain_eq_joinOf .comparison (fun _ => rfl) (fun _ => Join.exists_op_of_isComparison)
      (fun _ _ => rfl) _
  | conjunction => exact joined_eq_joinOf .conjunction rfl (fun _ _ => rfl) _
  | disjunction => exact joined_eq_joinOf .disjunction rfl (fun _ _ => rfl) _

def numerals (depth : Nat) : Level → Numerals
  | .operand => operandNumerals (Condition.numerals depth)
  | .defined => definedNumerals (expression depth) (Condition.numerals depth)
  | .not => unaryNumerals (expression depth) (Condition.numerals depth)
  | .join .arithmetic => sums depth
  | .join .comparison => comparisons depth
  | .join .conjunction =>
    chainNumerals (· = .and) (reader depth (.join .comparison)) (comparisons depth)
  | .join .disjunction => Condition.numerals (depth + 1)
where
  sums (depth : Nat) : Numerals :=
    chainNumerals isArithmetic (reader depth .not) <|
      unaryNumerals (expression depth) (Condition.numerals depth)
  comparisons (depth : Nat) : Numerals :=
    chainNumerals isComparison (reader depth (.join .arithmetic)) (sums depth)

theorem numerals_join (depth : Nat) (join : Join) :
    numerals depth (.join join) =
      chainNumerals join.joins (reader depth join.below) (numerals depth join.below) := by
  cases join <;> rfl

end Level

end Variability.Condition
