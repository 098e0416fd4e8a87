import Variability.Code.Builder

set_option autoImplicit false

namespace Variability

theorem bind_eq_ok {ε α β : Type} {x : Except ε α} {f : α → Except ε β} {b : β} :
    x >>= f = .ok b ↔ ∃ a, x = .ok a ∧ f a = .ok b := by
  cases x with
  | error e => simp [bind, Except.bind]
  | ok a => simp [bind, Except.bind]

def Directive.branch? : Directive → Option Code.Branch
  | .ifExpression | .ifdef | .ifndef => some .first
  | .elif => some .further
  | .otherwise => some .last
  | .endif => none

theorem Directive.eq_otherwise {d : Directive} (h : d.branch? = some .last) : d = .otherwise := by
  cases d <;> first | rfl | cases h

theorem Directive.eq_endif {d : Directive} (h : d.branch? = none) : d = .endif := by
  cases d <;> first | rfl | cases h

namespace Code

/-- A directive as far as it matters for the blocks: the kind of branch that it begins, with its
own condition, or the end of a chain, and the line. -/
inductive Mark where
  | branch (kind : Branch) (condition : Option Formula) (line : Int)
  | endif (line : Int)
  deriving DecidableEq, Repr

def Mark.line : Mark → Int
  | .branch _ _ line => line
  | .endif line => line

namespace Builder

theorem closeBranch_nil {b : Builder} (h : b.branches = []) (line : Int) :
    b.closeBranch line = .error (.unbalanced line) := by
  simp [closeBranch, h]

theorem closeBranch_isOk {b : Builder} (h : b.branches ≠ []) (line : Int) :
    ∃ earlier closed, b.closeBranch line = .ok (earlier, closed) := by
  unfold closeBranch
  split
  · contradiction
  · exact ⟨_, _, rfl⟩

end Builder

variable [ParserStack]

/-- The mark of a directive at a line; the text of `#endif` is not read. -/
def markOf (d : Directive) (line : Int) (text : Except Fault String) : Except Fault Mark :=
  match d.branch? with
  | none => .ok (.endif line)
  | some kind =>
    match text with
    | .error fault => .error fault
    | .ok text =>
      match Builder.conditionOf d text with
      | .error fault => .error fault
      | .ok c => .ok (.branch kind c.formula? line)

def Mark.begins : Mark → Bool
  | .branch _ _ _ => true
  | .endif _ => false

def Mark.ends : Mark → Bool
  | .branch .first _ _ => false
  | _ => true

def Landmark.marks : Landmark → List (Except Fault Mark)
  | .functionStart _ _ | .functionEnd _ => []
  | .directive d line text => [markOf d line text]
  | .broken fault => [.error fault]

@[simp] theorem Landmark.marks_functionEnd (lineFeeds : Nat) :
    (Landmark.functionEnd lineFeeds).marks = [] := rfl

theorem markOf_endif {d : Directive} (h : d.branch? = none) (line : Int)
    (text : Except Fault String) : markOf d line text = .ok (.endif line) := by
  simp [markOf, h]

theorem markOf_branch {d : Directive} {kind : Branch} (h : d.branch? = some kind) {line : Int}
    {text : Except Fault String} {mark : Mark} :
    markOf d line text = .ok mark ↔
      ∃ t c, text = .ok t ∧ Builder.conditionOf d t = .ok c ∧
        mark = .branch kind c.formula? line := by
  cases text with
  | error fault => simp [markOf, h]
  | ok t =>
    cases hc : Builder.conditionOf d t with
    | error fault => simp [markOf, h, hc]
    | ok c => simp [markOf, h, hc, eq_comm]

namespace Builder

theorem step_endif {d : Directive} (h : d.branch? = none) (b : Builder) (line : Int)
    (text : Except Fault String) :
    b.step (.directive d line text) = (b.closeBranch line).map (·.2) := by
  rw [Directive.eq_endif h]; rfl

theorem step_opening {d : Directive} (h : d.branch? = some .first) (b : Builder) (line : Int)
    (text : Except Fault String) :
    b.step (.directive d line text) =
      (text >>= conditionOf d).map fun c => b.openBranch .first line c [] := by
  cases text with
  | error fault => cases d <;> first | rfl | cases h
  | ok t =>
    have hstep : b.step (.directive d line (.ok t)) =
        conditionOf d t >>= fun c => .ok (b.openBranch .first line c []) := by
      cases d <;> first | rfl | cases h
    rw [hstep]
    cases hc : conditionOf d t <;> simp [bind, Except.bind, Except.map, hc]

theorem step_continuing {d : Directive} {kind : Branch} (h : d.branch? = some kind)
    (hkind : kind ≠ .first) (b : Builder) (line : Int) (text : Except Fault String) :
    b.step (.directive d line text) = b.continueChain d kind line text := by
  cases d with
  | elif => cases h; rfl
  | otherwise => cases h; rfl
  | endif => cases h
  | _ => exact absurd (Option.some.inj h).symm hkind

/-- How a landmark changes the builder, by the marks that it carries. -/
inductive Passes (b : Builder) : List Mark → Builder → Prop where
  | function {b' : Builder} (hbranches : b'.branches = b.branches)
      (hfinished : b'.finished = b.finished) : Passes b [] b'
  | opened (line : Int) (c : Condition) :
      Passes b [.branch .first c.formula? line] (b.openBranch .first line c [])
  | continued {kind : Branch} {line : Int} {c : Condition} {earlier : List (Option Formula)}
      {closed : Builder} (hkind : kind ≠ .first) (hbare : kind = .last → c.formula? = none)
      (hclose : b.closeBranch line = .ok (earlier, closed)) :
      Passes b [.branch kind c.formula? line] (closed.openBranch kind line c earlier)
  | ended {line : Int} {earlier : List (Option Formula)} {closed : Builder}
      (hclose : b.closeBranch line = .ok (earlier, closed)) : Passes b [.endif line] closed

theorem continueChain_eq {b closed : Builder} {d : Directive} {kind : Branch} {line : Int}
    {t : String} {c : Condition} {earlier : List (Option Formula)}
    (hclose : b.closeBranch line = .ok (earlier, closed)) (hc : conditionOf d t = .ok c) :
    b.continueChain d kind line (.ok t) = .ok (closed.openBranch kind line c earlier) := by
  simp [continueChain, hclose, hc, bind, Except.bind, pure, Except.pure]

theorem Passes.of_continued {b : Builder} {d : Directive} {kind : Branch}
    (hd : d.branch? = some kind) (hkind : kind ≠ .first) {line : Int} {t : String} {c : Condition}
    (hc : conditionOf d t = .ok c) {earlier : List (Option Formula)} {closed : Builder}
    (hclose : b.closeBranch line = .ok (earlier, closed)) :
    b.Passes [.branch kind c.formula? line] (closed.openBranch kind line c earlier) := by
  refine .continued hkind (fun hl => ?_) hclose
  subst hl
  obtain rfl := Directive.eq_otherwise hd
  exact Except.ok.inj hc ▸ rfl

/-- What a directive does whose mark can be read: it fails only if it ends a branch while none is
open. -/
theorem step_of_markOf {b : Builder} {d : Directive} {line : Int} {text : Except Fault String}
    {mark : Mark} (hm : markOf d line text = .ok mark) :
    (∃ b', b.step (.directive d line text) = .ok b' ∧ b.Passes [mark] b') ∨
      (mark.ends ∧ b.branches = [] ∧
        b.step (.directive d line text) = .error (.unbalanced mark.line)) := by
  cases hd : d.branch? with
  | none =>
    rw [markOf_endif hd] at hm
    obtain rfl := Except.ok.inj hm
    rw [step_endif hd]
    by_cases hb : b.branches = []
    · exact .inr ⟨rfl, hb, by rw [closeBranch_nil hb]; rfl⟩
    · obtain ⟨earlier, closed, hclose⟩ := closeBranch_isOk hb line
      exact .inl ⟨closed, by rw [hclose]; rfl, .ended hclose⟩
  | some kind =>
    obtain ⟨t, c, rfl, hc, rfl⟩ := (markOf_branch hd).1 hm
    by_cases hkind : kind = .first
    · subst hkind
      rw [step_opening hd]
      exact .inl ⟨_, by simp [bind, Except.bind, hc, Except.map], .opened line c⟩
    · rw [step_continuing hd hkind]
      by_cases hb : b.branches = []
      · refine .inr ⟨?_, hb, by rw [continueChain, closeBranch_nil hb]; rfl⟩
        cases kind with
        | first => exact absurd rfl hkind
        | _ => rfl
      · obtain ⟨earlier, closed, hclose⟩ := closeBranch_isOk hb line
        exact .inl ⟨_, continueChain_eq hclose hc, .of_continued hd hkind hc hclose⟩

theorem step_of_marks {b : Builder} {m : Landmark} {ms : List Mark} (hm : m.marks = ms.map .ok) :
    (∃ b', b.step m = .ok b' ∧ b.Passes ms b') ∨
      ∃ mark, ms = [mark] ∧ mark.ends ∧ b.branches = [] ∧
        b.step m = .error (.unbalanced mark.line) := by
  cases m with
  | broken fault => cases ms <;> cases hm
  | functionStart name line =>
    obtain rfl := List.map_eq_nil_iff.1 hm.symm
    exact .inl ⟨_, rfl, .function rfl rfl⟩
  | functionEnd lineFeeds =>
    obtain rfl := List.map_eq_nil_iff.1 hm.symm
    refine .inl ?_
    rw [step]
    split
    · exact ⟨b, rfl, .function rfl rfl⟩
    · exact ⟨_, rfl, .function rfl rfl⟩
  | directive d line text =>
    obtain ⟨mark, hmark, rfl⟩ : ∃ mark, markOf d line text = .ok mark ∧ [mark] = ms := by
      obtain _ | ⟨mark, _ | ⟨_, _⟩⟩ := ms <;> simp_all [Landmark.marks]
    rcases step_of_markOf hmark with h | ⟨hends, hb, h⟩
    · exact .inl h
    · exact .inr ⟨mark, rfl, hends, hb, h⟩

theorem marks_of_step {b b' : Builder} {m : Landmark} (h : b.step m = .ok b') :
    ∃ ms : List Mark, m.marks = ms.map .ok := by
  cases m with
  | broken fault => cases h
  | functionStart name line => exact ⟨[], rfl⟩
  | functionEnd lineFeeds => exact ⟨[], rfl⟩
  | directive d line text =>
    suffices ∃ mark, markOf d line text = .ok mark by
      obtain ⟨mark, hm⟩ := this
      exact ⟨[mark], by rw [Landmark.marks, hm]; rfl⟩
    cases hd : d.branch? with
    | none => exact ⟨_, markOf_endif hd line text⟩
    | some kind =>
      suffices ∃ t c, text = .ok t ∧ conditionOf d t = .ok c by
        obtain ⟨t, c, ht, hc⟩ := this
        exact ⟨_, (markOf_branch hd).2 ⟨t, c, ht, hc, rfl⟩⟩
      by_cases hkind : kind = .first
      · subst hkind
        rw [step_opening hd] at h
        cases hread : text >>= conditionOf d with
        | error fault => rw [hread] at h; cases h
        | ok c => exact (bind_eq_ok.1 hread).imp fun t ht => ⟨c, ht⟩
      · rw [step_continuing hd hkind, continueChain] at h
        obtain ⟨closed, _, h⟩ := bind_eq_ok.1 h
        obtain ⟨t, ht, h⟩ := bind_eq_ok.1 h
        obtain ⟨c, hc, _⟩ := bind_eq_ok.1 h
        exact ⟨t, c, ht, hc⟩

theorem passes_of_step {b b' : Builder} {m : Landmark} (h : b.step m = .ok b') :
    ∃ ms : List Mark, m.marks = ms.map .ok ∧ b.Passes ms b' := by
  obtain ⟨ms, hm⟩ := marks_of_step h
  rcases step_of_marks (b := b) hm with ⟨b₁, hstep, hp⟩ | ⟨_, _, _, _, hstep⟩
  · rw [h] at hstep
    exact ⟨ms, hm, Except.ok.inj hstep ▸ hp⟩
  · rw [h] at hstep; cases hstep

end Builder
end Code
end Variability
