import Mathlib.Data.Nat.Find
import Variability.Proofs.Code.Balance
import Variability.Proofs.Code.Unfolding

/-!
Stretches of directives that match among themselves. A chain goes on with the first directive that
needs an open branch where its last branch is the innermost open one.
-/

set_option autoImplicit false

namespace Variability.Code

/-- No directive is stray and no chain is left open. -/
structure Matched (ms : List Mark) : Prop where
  stray : ∀ i, ¬Stray ms i
  count : openCount ms = 0

/-- The directive at `j` is the next one in the chain of the branch that the directive at `i` begins. -/
structure NextInChain (ms : List Mark) (i j : Nat) : Prop where
  ends : ∃ m, ms[j]? = some m ∧ m.ends
  stillOpen : StillOpen (ms.take j) i
  depth : openCount (ms.take j) = openCount (ms.take (i + 1))

/-- A chain with a directive among those from `a` to `b` lies wholly among them. -/
def KeepsChains (ms : List Mark) (a b : Nat) : Prop :=
  ∀ i j, NextInChain ms i j → ((a ≤ i ∧ i < b) ↔ (a ≤ j ∧ j < b))

instance (ms : List Mark) (i : Nat) : Decidable (StillOpen ms i) :=
  decidable_of_iff ((∃ m ∈ ms[i]?, m.begins) ∧ ∀ j < ms.length, i < j → ∀ m ∈ ms[j]?, m.ends →
      openCount (ms.take j) ≠ openCount (ms.take (i + 1)))
    ⟨fun ⟨hbegins, h⟩ => ⟨hbegins, fun j m hij hm =>
      h j (List.getElem?_eq_some_iff.1 hm).1 hij m hm⟩,
    fun ⟨hbegins, h⟩ => ⟨hbegins, fun j _ hij m hm => h j m hij hm⟩⟩

instance (ms : List Mark) (i j : Nat) : Decidable (NextInChain ms i j) :=
  decidable_of_iff ((∃ m ∈ ms[j]?, m.ends) ∧ StillOpen (ms.take j) i ∧
      openCount (ms.take j) = openCount (ms.take (i + 1)))
    ⟨fun ⟨hends, hopen, hdepth⟩ => ⟨hends, hopen, hdepth⟩, fun h => ⟨h.ends, h.stillOpen, h.depth⟩⟩

theorem NextInChain.lt {ms : List Mark} {i j : Nat} (h : NextInChain ms i j) :
    i < j ∧ j < ms.length := by
  obtain ⟨m, hm, -⟩ := h.ends
  have hi := h.stillOpen.lt_length
  have hj := (List.getElem?_eq_some_iff.1 hm).1
  rw [List.length_take] at hi
  omega

instance (ms : List Mark) (a b : Nat) : Decidable (KeepsChains ms a b) :=
  decidable_of_iff (∀ j < ms.length, ∀ i < j, NextInChain ms i j →
      ((a ≤ i ∧ i < b) ↔ (a ≤ j ∧ j < b)))
    ⟨fun h i j hnext => h j hnext.lt.2 i hnext.lt.1 hnext, fun h j _ i _ hnext => h i j hnext⟩

theorem openCount_append (ms ns : List Mark) : openCount (ms ++ ns) = openCount ms + openCount ns := by
  simp only [openCount, List.countP_append]
  omega

theorem openCount_cons (m : Mark) (ms : List Mark) :
    openCount (m :: ms) = openCount [m] + openCount ms := openCount_append [m] ms

/-- From this depth on no directive needs an open branch where none is open. -/
def Stays : Int → List Mark → Prop
  | _, [] => True
  | n, m :: ms => (m.ends → n ≠ 0) ∧ Stays (n + openCount [m]) ms

theorem stays_append {n : Int} {ms ns : List Mark} :
    Stays n (ms ++ ns) ↔ Stays n ms ∧ Stays (n + openCount ms) ns := by
  induction ms generalizing n with
  | nil =>
    have hnil : openCount [] = 0 := rfl
    simp [Stays, hnil]
  | cons m ms ih =>
    rw [List.cons_append, Stays, Stays, ih, openCount_cons m ms, and_assoc, Int.add_assoc]

theorem stays_iff {n : Int} {ms : List Mark} :
    Stays n ms ↔ ∀ i m, ms[i]? = some m → m.ends → n + openCount (ms.take i) ≠ 0 := by
  have hnil : openCount [] = 0 := rfl
  induction ms generalizing n with
  | nil => simp [Stays]
  | cons m ms ih =>
    simp only [Stays, ih]
    constructor
    · rintro ⟨hm, hms⟩ i e he hends
      cases i with
      | zero =>
        obtain rfl := Option.some.inj he
        simpa [hnil] using hm hends
      | succ i =>
        rw [List.take_succ_cons, openCount_cons, ← Int.add_assoc]
        exact hms i e he hends
    · intro h
      refine ⟨fun hends => by simpa [hnil] using h 0 m rfl hends, fun i e he hends => ?_⟩
      have hi := h (i + 1) e he hends
      rwa [List.take_succ_cons, openCount_cons, ← Int.add_assoc] at hi

theorem stays_zero {ms : List Mark} : Stays 0 ms ↔ ∀ i, ¬Stray ms i := by
  rw [stays_iff]
  constructor
  · rintro h i ⟨m, hm, hends, hzero⟩
    exact h i m hm hends (by rw [hzero]; rfl)
  · intro h i m hm hends hzero
    exact h i ⟨m, hm, hends, by omega⟩

def openness (chain : List Block) : Int := if chain = [] then 0 else 1

theorem openness_concat (chain : List Block) (b : Block) : openness (chain ++ [b]) = 1 := by
  simp [openness]

theorem stays_closing (chain : List Block) {n : Int} (hn : 0 ≤ n) :
    Stays (n + openness chain) (closing chain) ∧ openCount (closing chain) = -openness chain := by
  rcases List.eq_nil_or_concat chain with rfl | ⟨chain, b, rfl⟩
  · exact ⟨trivial, rfl⟩
  · rw [List.concat_eq_append, closing_concat, openness_concat]
    exact ⟨⟨fun _ => by omega, trivial⟩, rfl⟩

/-- A level goes down by the chain that was open before it and never below. -/
theorem Forest.stays_unfold {around : Option Block} {chain : List Block} {f : Forest}
    (h : f.Each Block.Fits around chain) {n : Int} (hn : 0 ≤ n) :
    Stays (n + openness chain) (f.unfold chain) ∧ openCount (f.unfold chain) = -openness chain := by
  induction f generalizing around chain n with
  | nil => exact stays_closing chain hn
  | block b children next hchildren hnext =>
    obtain ⟨hb, hinside, hbehind⟩ := h
    obtain ⟨hbranch, hbranchCount⟩ : Stays (n + openness chain) (b.branch.closing chain ++ [b.mark]) ∧
        openCount (b.branch.closing chain ++ [b.mark]) = 1 - openness chain := by
      by_cases hfirst : b.branch = .first
      · obtain ⟨hclosing, hcount⟩ := stays_closing chain hn
        have hmark : openCount [b.mark] = 1 := by rw [Block.mark, hfirst]; rfl
        rw [Branch.closing, if_pos hfirst, stays_append, openCount_append, hcount, hmark]
        exact ⟨⟨hclosing, by simp [Stays, Block.mark, hfirst, Mark.ends]⟩, by omega⟩
      · have hne : chain ≠ [] := by
          have hcontinues := hb.continues hfirst
          rwa [Branch.earlier, if_neg hfirst] at hcontinues
        have hopen : openness chain = 1 := if_neg hne
        have hmark : openCount [b.mark] = 0 := by
          rw [Block.mark]
          cases hkind : b.branch with
          | first => exact absurd hkind hfirst
          | _ => rfl
        rw [Branch.closing, if_neg hfirst, List.nil_append, hmark, hopen]
        exact ⟨⟨fun _ => by omega, trivial⟩, rfl⟩
    obtain ⟨hstaysInside, hcountInside⟩ := hchildren hinside (Int.add_nonneg hn Int.one_nonneg)
    obtain ⟨hstaysBehind, hcountBehind⟩ := hnext hbehind hn
    have hempty : openness [] = 0 := rfl
    rw [openness_concat] at hstaysBehind hcountBehind
    rw [unfold, List.append_cons]
    generalize b.branch.closing chain ++ [b.mark] = head at hbranch hbranchCount
    rw [stays_append, stays_append, openCount_append, openCount_append, hbranchCount, hcountInside,
      hcountBehind, hempty]
    have hdepth : n + openness chain + (1 - openness chain) = n + 1 := by omega
    rw [hempty, Int.add_zero] at hstaysInside
    rw [hdepth, Int.neg_zero, Int.add_zero]
    exact ⟨⟨hbranch, hstaysInside, hstaysBehind⟩, by omega⟩

theorem Forest.matched_unfold {around : Option Block} {f : Forest}
    (h : f.Each Block.Fits around []) : Matched (f.unfold []) := by
  obtain ⟨hstays, hcount⟩ := f.stays_unfold h (Int.le_refl 0)
  exact ⟨stays_zero.1 hstays, hcount⟩

theorem exists_openAt {ms : List Mark} (h : ∀ i, ¬Stray ms i) : ∃ places, OpenAt ms places := by
  induction ms using List.reverseRecOn with
  | nil => exact ⟨[], rfl, fun i => by simp [StillOpen], trivial⟩
  | append_singleton ms m ih =>
    have hbefore : ∀ i, ¬Stray ms i := fun i hi => by
      obtain ⟨e, he, -⟩ := id hi
      exact h i ((stray_append (List.getElem?_eq_some_iff.1 he).1 [m]).2 hi)
    obtain ⟨places, hopen⟩ := ih hbefore
    by_cases hends : m.ends
    · cases places with
      | nil => exact absurd ((stray_length ms m []).2 ⟨hends, hopen.count⟩) (h ms.length)
      | cons i rest =>
        by_cases hbegins : m.begins
        · exact ⟨_, hopen.replace hends hbegins⟩
        · exact ⟨_, hopen.pop hends hbegins⟩
    · exact ⟨_, hopen.push hends⟩

theorem Matched.not_stillOpen {ms : List Mark} (h : Matched ms) (i : Nat) : ¬StillOpen ms i := by
  obtain ⟨places, hopen⟩ := exists_openAt h.stray
  have hlength : places.length = 0 := by
    have := hopen.count
    rw [h.count] at this
    omega
  rw [← hopen.mem, List.eq_nil_of_length_eq_zero hlength]
  exact List.not_mem_nil

theorem exists_previous {ms : List Mark} (h : ∀ i, ¬Stray ms i) {j : Nat} {m : Mark}
    (hm : ms[j]? = some m) (hends : m.ends) : ∃ i, NextInChain ms i j := by
  have hj := (List.getElem?_eq_some_iff.1 hm).1
  have hbefore : ∀ i, ¬Stray (ms.take j) i := fun i hi => by
    obtain ⟨e, he, -⟩ := id hi
    have hstray := (stray_append (List.getElem?_eq_some_iff.1 he).1 (ms.drop j)).2 hi
    rw [List.take_append_drop] at hstray
    exact h i hstray
  obtain ⟨places, hopen⟩ := exists_openAt hbefore
  cases places with
  | nil => exact absurd ⟨m, hm, hends, hopen.count⟩ (h j)
  | cons i rest =>
    have hi := hopen.lt_length i List.mem_cons_self
    have hdepth := hopen.nested.1
    rw [List.length_take] at hi
    rw [List.take_take, Nat.min_eq_left (by omega)] at hdepth
    refine ⟨i, ⟨m, hm, hends⟩, (hopen.mem i).1 List.mem_cons_self, ?_⟩
    rw [hopen.count, hdepth]
    rfl

theorem exists_next {ms : List Mark} {i : Nat} {m : Mark} (hm : ms[i]? = some m) (hbegins : m.begins)
    (h : ¬StillOpen ms i) : ∃ j, NextInChain ms i j := by
  have hexists : ∃ j, i < j ∧ ∃ e, ms[j]? = some e ∧ e.ends ∧
      openCount (ms.take j) = openCount (ms.take (i + 1)) := by
    by_contra hnone
    refine h ⟨⟨m, hm, hbegins⟩, fun j e hij he hends hdepth => hnone ⟨j, hij, e, he, hends, hdepth⟩⟩
  classical
  obtain ⟨hij, e, he, hends, hdepth⟩ := Nat.find_spec hexists
  have hfirst := @Nat.find_min _ _ hexists
  generalize Nat.find hexists = j at hij he hdepth hfirst
  have htake : (ms.take j).take (i + 1) = ms.take (i + 1) := by
    rw [List.take_take, Nat.min_eq_left hij]
  refine ⟨j, ⟨e, he, hends⟩, ⟨⟨m, by rw [List.getElem?_take_of_lt hij, hm], hbegins⟩, ?_⟩, hdepth⟩
  intro k e' hik he' hends' hdepth'
  have hkj : k < j := by
    have := (List.getElem?_eq_some_iff.1 he').1
    rw [List.length_take] at this
    omega
  rw [List.getElem?_take_of_lt hkj] at he'
  rw [htake, List.take_take, Nat.min_eq_left hkj.le] at hdepth'
  exact hfirst hkj ⟨hik, e', he', hends', hdepth'⟩

section Stretch

variable {before inside behind : List Mark}

theorem take_stretch (before ms : List Mark) (k : Nat) :
    openCount ((before ++ ms).take (before.length + k)) = openCount before + openCount (ms.take k) := by
  rw [List.take_length_add_append, openCount_append]

theorem getElem?_stretch (before ms : List Mark) (k : Nat) :
    (before ++ ms)[before.length + k]? = ms[k]? := by
  rw [List.getElem?_append_right (Nat.le_add_right _ _), Nat.add_sub_cancel_left]

theorem StillOpen.of_append {ms : List Mark} {i : Nat}
    (h : StillOpen (before ++ ms) (before.length + i)) : StillOpen ms i := by
  obtain ⟨hbegins, hlater⟩ := h
  rw [getElem?_stretch] at hbegins
  refine ⟨hbegins, fun j m hij hm hends hdepth => ?_⟩
  refine hlater (before.length + j) m (by omega) (by rwa [getElem?_stretch]) hends ?_
  rw [take_stretch, Nat.add_assoc, take_stretch, hdepth]

theorem not_stray_inside (h : Matched (before ++ (inside ++ behind)))
    (hkeeps : KeepsChains (before ++ (inside ++ behind)) before.length
      (before.length + inside.length)) : ∀ k, ¬Stray inside k := by
  intro k
  induction k using Nat.strong_induction_on with
  | _ k ih =>
    rintro ⟨m, hm, hends, hzero⟩
    have hk := (List.getElem?_eq_some_iff.1 hm).1
    have htake : (inside ++ behind).take k = inside.take k := List.take_append_of_le_length hk.le
    have hplace : (before ++ (inside ++ behind))[before.length + k]? = some m := by
      rw [getElem?_stretch, List.getElem?_append_left hk, hm]
    obtain ⟨i, hnext⟩ := exists_previous h.stray hplace hends
    obtain ⟨hi, -⟩ := (hkeeps i _ hnext).2 ⟨Nat.le_add_right _ _, by omega⟩
    obtain ⟨i, rfl⟩ := Nat.exists_eq_add_of_le hi
    -- the branch is open before the first stray directive, where nothing inside is open
    have hstill := hnext.stillOpen
    rw [List.take_length_add_append, htake] at hstill
    have hmatched : Matched (inside.take k) := by
      refine ⟨fun j hj => ?_, hzero⟩
      obtain ⟨e, he, -⟩ := id hj
      have hjk := (List.getElem?_eq_some_iff.1 he).1
      have hstray := (stray_append hjk (inside.drop k)).2 hj
      rw [List.take_append_drop] at hstray
      rw [List.length_take] at hjk
      exact ih j (by omega) hstray
    exact hmatched.not_stillOpen i hstill.of_append

theorem matched_inside (h : Matched (before ++ (inside ++ behind)))
    (hkeeps : KeepsChains (before ++ (inside ++ behind)) before.length
      (before.length + inside.length)) : Matched inside := by
  have hstray := not_stray_inside h hkeeps
  refine ⟨hstray, ?_⟩
  obtain ⟨places, hopen⟩ := exists_openAt hstray
  cases places with
  | nil => exact hopen.count
  | cons i rest =>
    -- a branch that is left open inside has its next directive inside
    obtain ⟨⟨m, hm, hbegins⟩, hlater⟩ := (hopen.mem i).1 List.mem_cons_self
    have hi := (List.getElem?_eq_some_iff.1 hm).1
    have hplace : (before ++ (inside ++ behind))[before.length + i]? = some m := by
      rw [getElem?_stretch, List.getElem?_append_left hi, hm]
    obtain ⟨j, hnext⟩ := exists_next hplace hbegins (h.not_stillOpen _)
    obtain ⟨hj, hjlt⟩ := (hkeeps _ j hnext).1 ⟨Nat.le_add_right _ _, by omega⟩
    obtain ⟨j, rfl⟩ := Nat.exists_eq_add_of_le hj
    obtain ⟨e, he, hends⟩ := hnext.ends
    rw [getElem?_stretch, List.getElem?_append_left (by omega)] at he
    have hdepth := hnext.depth
    rw [Nat.add_assoc, take_stretch, take_stretch, List.take_append_of_le_length (by omega),
      List.take_append_of_le_length (by omega)] at hdepth
    have hij := hnext.stillOpen.lt_length
    rw [List.length_take] at hij
    exact absurd (Int.add_left_cancel hdepth) (hlater j e (by omega) he hends)

/-- Behind directives that match among themselves the depth is that before them. -/
theorem Matched.afterwards (h : Matched (before ++ (inside ++ behind))) (hinside : Matched inside) :
    Stays (openCount before) behind ∧ openCount before + openCount behind = 0 := by
  have hstays := stays_zero.2 h.stray
  have hcount := h.count
  rw [stays_append, stays_append, hinside.count, Int.zero_add, Int.add_zero] at hstays
  rw [openCount_append, openCount_append, hinside.count, Int.zero_add] at hcount
  exact ⟨hstays.2.2, hcount⟩

end Stretch
end Variability.Code
