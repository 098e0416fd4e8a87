import Variability.Proofs.Code.Occurrence

/-!
Conditionals that do not match. While no directive is stray, the open branches of the builder are
the branches that are still open after the directives met so far, innermost first.
-/

set_option autoImplicit false

namespace Variability.Code

/-- How many chains are open after the directives: those begun without the end of a branch, less
those ended without the beginning of another one. -/
def openCount (ms : List Mark) : Int :=
  (ms.countP fun m => !m.ends) - (ms.countP fun m => !m.begins)

/-- A directive that needs an open branch where none is open. -/
def Stray (ms : List Mark) (i : Nat) : Prop :=
  ∃ m, ms[i]? = some m ∧ m.ends ∧ openCount (ms.take i) = 0

/-- A branch that no later directive ends: none that needs an open branch stands at its depth. -/
def StillOpen (ms : List Mark) (i : Nat) : Prop :=
  (∃ m, ms[i]? = some m ∧ m.begins) ∧
    ∀ j m, i < j → ms[j]? = some m → m.ends → openCount (ms.take j) ≠ openCount (ms.take (i + 1))

theorem openCount_concat (ms : List Mark) (m : Mark) :
    openCount (ms ++ [m]) =
      openCount ms + (if m.ends then 0 else 1) - (if m.begins then 0 else 1) := by
  simp only [openCount, List.countP_append, List.countP_singleton]
  cases m.ends <;> cases m.begins <;> simp <;> omega

theorem stray_append {ms : List Mark} {i : Nat} (hi : i < ms.length) (ns : List Mark) :
    Stray (ms ++ ns) i ↔ Stray ms i := by
  rw [Stray, Stray, List.getElem?_append_left hi, List.take_append_of_le_length (by omega)]

theorem stray_length (ms : List Mark) (m : Mark) (ns : List Mark) :
    Stray (ms ++ m :: ns) ms.length ↔ m.ends ∧ openCount ms = 0 := by
  simp [Stray]

theorem StillOpen.lt_length {ms : List Mark} {i : Nat} (h : StillOpen ms i) : i < ms.length := by
  obtain ⟨⟨m, hm, _⟩, _⟩ := h
  exact (List.getElem?_eq_some_iff.1 hm).1

theorem stillOpen_concat_of_lt {ms : List Mark} {i : Nat} (hi : i < ms.length) (m : Mark) :
    StillOpen (ms ++ [m]) i ↔
      StillOpen ms i ∧ (m.ends → openCount ms ≠ openCount (ms.take (i + 1))) := by
  have htake : (ms ++ [m]).take (i + 1) = ms.take (i + 1) :=
    List.take_append_of_le_length (by omega)
  simp only [StillOpen, List.getElem?_append_left hi, htake, and_assoc]
  refine and_congr_right fun _ => ⟨fun h => ⟨fun j e hij he hends => ?_, fun hends => ?_⟩, ?_⟩
  · have hj : j < ms.length := (List.getElem?_eq_some_iff.1 he).1
    have h := h j e hij (by rw [List.getElem?_append_left hj, he]) hends
    rwa [List.take_append_of_le_length (by omega)] at h
  · simpa using h ms.length m hi (by simp) hends
  · rintro ⟨hbefore, hm⟩ j e hij he hends
    rcases Nat.lt_or_ge j ms.length with hj | hj
    · rw [List.getElem?_append_left hj] at he
      rw [List.take_append_of_le_length (by omega)]
      exact hbefore j e hij he hends
    · have hlength : j < (ms ++ [m]).length := (List.getElem?_eq_some_iff.1 he).1
      obtain rfl : j = ms.length := by simp at hlength; omega
      obtain rfl : m = e := by simpa using he
      simpa using hm hends

theorem stillOpen_concat_length (ms : List Mark) (m : Mark) :
    StillOpen (ms ++ [m]) ms.length ↔ m.begins := by
  constructor
  · rintro ⟨⟨e, he, hbegins⟩, _⟩
    obtain rfl : m = e := by simpa using he
    exact hbegins
  · refine fun hbegins => ⟨⟨m, by simp, hbegins⟩, fun j e hj he => ?_⟩
    have hlength : j < (ms ++ [m]).length := (List.getElem?_eq_some_iff.1 he).1
    simp at hlength
    omega

/-- One more directive ends the branches at its depth if it ends any, and may begin one. -/
theorem stillOpen_concat (ms : List Mark) (m : Mark) (i : Nat) :
    StillOpen (ms ++ [m]) i ↔
      (StillOpen ms i ∧ (m.ends → openCount ms ≠ openCount (ms.take (i + 1)))) ∨
        (i = ms.length ∧ m.begins) := by
  rcases Nat.lt_trichotomy i ms.length with hi | rfl | hi
  · rw [stillOpen_concat_of_lt hi]
    simp [Nat.ne_of_lt hi]
  · have hnot : ¬StillOpen ms ms.length := fun h => Nat.lt_irrefl _ h.lt_length
    rw [stillOpen_concat_length]
    simp [hnot]
  · have hnot : ¬StillOpen (ms ++ [m]) i := fun h => by
      have hlength := h.lt_length
      simp at hlength
      omega
    have hbefore : ¬StillOpen ms i := fun h => Nat.lt_asymm hi h.lt_length
    simp [hnot, hbefore, Nat.ne_of_gt hi]

theorem Mark.begins_of_not_ends {m : Mark} (h : ¬m.ends) : m.begins := by
  cases m with
  | branch kind c line => rfl
  | endif line => exact absurd rfl h

def Nested (ms : List Mark) : List Nat → Prop
  | [] => True
  | i :: rest =>
    openCount (ms.take (i + 1)) = rest.length + 1 ∧ (∀ j ∈ rest, j < i) ∧ Nested ms rest

theorem Nested.append {ms : List Mark} {places : List Nat} (h : Nested ms places)
    (hlt : ∀ i ∈ places, i < ms.length) (ns : List Mark) : Nested (ms ++ ns) places := by
  induction places with
  | nil => trivial
  | cons i rest ih =>
    obtain ⟨hdepth, hbefore, hrest⟩ := h
    have hi := hlt i List.mem_cons_self
    refine ⟨?_, hbefore, ih hrest fun j hj => hlt j (List.mem_cons_of_mem i hj)⟩
    rw [List.take_append_of_le_length (by omega)]
    exact hdepth

theorem Nested.depth_le {ms : List Mark} {places : List Nat} (h : Nested ms places) :
    ∀ i ∈ places, openCount (ms.take (i + 1)) ≤ places.length := by
  induction places with
  | nil => simp
  | cons i rest ih =>
    obtain ⟨hdepth, _, hrest⟩ := h
    intro j hj
    rcases List.mem_cons.1 hj with rfl | hj
    · simp [hdepth]
    · have := ih hrest j hj
      simp only [List.length_cons]
      omega

/-- The places of the branches that are still open, innermost first. -/
structure OpenAt (ms : List Mark) (places : List Nat) : Prop where
  count : openCount ms = places.length
  mem : ∀ i, i ∈ places ↔ StillOpen ms i
  nested : Nested ms places

namespace OpenAt

variable {ms : List Mark} {places : List Nat} {m : Mark}

theorem lt_length (h : OpenAt ms places) : ∀ i ∈ places, i < ms.length :=
  fun i hi => ((h.mem i).1 hi).lt_length

theorem nested_cons {rest : List Nat} (hrest : Nested ms rest) (hlt : ∀ i ∈ rest, i < ms.length)
    (hcount : openCount (ms ++ [m]) = rest.length + 1) :
    Nested (ms ++ [m]) (ms.length :: rest) := by
  refine ⟨?_, hlt, hrest.append hlt [m]⟩
  rw [List.take_of_length_le (by simp), hcount]

theorem push (h : OpenAt ms places) (hm : ¬m.ends) : OpenAt (ms ++ [m]) (ms.length :: places) := by
  have hbegins := Mark.begins_of_not_ends hm
  have hcount : openCount (ms ++ [m]) = places.length + 1 := by
    simp [openCount_concat, hm, hbegins, h.count]
  refine ⟨by simp [hcount], fun i => ?_, nested_cons h.nested h.lt_length hcount⟩
  rw [stillOpen_concat, List.mem_cons, h.mem]
  simp [hm, hbegins, or_comm]

/-- The innermost branch stands at the depth of what follows, the others stand at lower ones. -/
theorem stillOpen_concat_ends {i : Nat} {rest : List Nat} (h : OpenAt ms (i :: rest))
    (hm : m.ends) (j : Nat) :
    StillOpen (ms ++ [m]) j ↔ j ∈ rest ∨ (j = ms.length ∧ m.begins) := by
  obtain ⟨hdepth, hbefore, hrest⟩ := h.nested
  have hcount : openCount ms = rest.length + 1 := by simpa using h.count
  rw [stillOpen_concat, ← h.mem]
  refine or_congr_left ⟨fun ⟨hj, hne⟩ => ?_, fun hj => ⟨List.mem_cons_of_mem i hj, fun _ => ?_⟩⟩
  · rcases List.mem_cons.1 hj with rfl | hj
    · exact absurd (hcount.trans hdepth.symm) (hne hm)
    · exact hj
  · have := hrest.depth_le j hj
    omega

theorem replace {i : Nat} {rest : List Nat} (h : OpenAt ms (i :: rest)) (hm : m.ends)
    (hbegins : m.begins) : OpenAt (ms ++ [m]) (ms.length :: rest) := by
  have hcount : openCount (ms ++ [m]) = rest.length + 1 := by
    simp [openCount_concat, hm, hbegins, h.count]
  have hlt : ∀ j ∈ rest, j < ms.length := fun j hj => h.lt_length j (List.mem_cons_of_mem i hj)
  refine ⟨by simp [hcount], fun j => ?_, nested_cons h.nested.2.2 hlt hcount⟩
  rw [h.stillOpen_concat_ends hm, List.mem_cons]
  simp [hbegins, or_comm]

theorem pop {i : Nat} {rest : List Nat} (h : OpenAt ms (i :: rest)) (hm : m.ends)
    (hbegins : ¬m.begins) : OpenAt (ms ++ [m]) rest := by
  have hlt : ∀ j ∈ rest, j < ms.length := fun j hj => h.lt_length j (List.mem_cons_of_mem i hj)
  refine ⟨by simp [openCount_concat, hm, hbegins, h.count], fun j => ?_, h.nested.2.2.append hlt [m]⟩
  rw [h.stillOpen_concat_ends hm]
  simp [hbegins]

end OpenAt

/-- After these directives, none of them stray, a builder keeps the branches that are still open. -/
structure Follows (ms : List Mark) (b : Builder) : Prop where
  stray : ∀ i, ¬Stray ms i
  kept : ∃ places, OpenAt ms places ∧
    places.map (fun i => ms[i]?.map Mark.line) = b.branches.map fun o => some o.block.lineStart

theorem follows_empty : Follows [] {} := by
  refine ⟨fun i => by simp [Stray], [], ⟨rfl, fun i => ?_, trivial⟩, rfl⟩
  simp [StillOpen]

theorem closeBranch_branches {b closed : Builder} {line : Int} {earlier : List (Option Formula)}
    (h : b.closeBranch line = .ok (earlier, closed)) : ∃ o, b.branches = o :: closed.branches := by
  unfold Builder.closeBranch at h
  split at h
  · cases h
  · next o rest hb =>
    obtain ⟨_, rfl⟩ := Prod.mk.inj (Except.ok.inj h)
    exact ⟨o, hb⟩

namespace Follows

variable {ms : List Mark} {b : Builder}

theorem openCount_eq (h : Follows ms b) : openCount ms = b.branches.length := by
  obtain ⟨places, hopen, hlines⟩ := h.kept
  have hlength : places.length = b.branches.length := by
    simpa using congrArg List.length hlines
  rw [hopen.count, hlength]

theorem not_stray_concat (h : Follows ms b) {m : Mark} (hm : m.ends → b.branches ≠ []) (i : Nat) :
    ¬Stray (ms ++ [m]) i := by
  intro hstray
  have hi : i < (ms ++ [m]).length := by
    obtain ⟨e, he, _⟩ := hstray
    exact (List.getElem?_eq_some_iff.1 he).1
  rcases Nat.lt_or_ge i ms.length with hlt | hge
  · exact h.stray i ((stray_append hlt [m]).1 hstray)
  · obtain rfl : i = ms.length := by simp at hi; omega
    obtain ⟨hends, hzero⟩ := (stray_length ms m []).1 hstray
    have hcount := h.openCount_eq
    exact hm hends (List.eq_nil_of_length_eq_zero (by omega))

theorem map_line_append {places : List Nat} (hlt : ∀ i ∈ places, i < ms.length) (ns : List Mark) :
    places.map (fun i => (ms ++ ns)[i]?.map Mark.line) =
      places.map fun i => ms[i]?.map Mark.line := by
  refine List.map_congr_left fun i hi => ?_
  rw [List.getElem?_append_left (hlt i hi)]

theorem uncons (h : Follows ms b) {o : OpenBranch} {rest : List OpenBranch}
    (hb : b.branches = o :: rest) :
    ∃ i places, OpenAt ms (i :: places) ∧ (∀ j ∈ places, j < ms.length) ∧
      ms[i]?.map Mark.line = some o.block.lineStart ∧
      places.map (fun i => ms[i]?.map Mark.line) = rest.map fun o => some o.block.lineStart := by
  obtain ⟨places, hopen, hlines⟩ := h.kept
  rw [hb] at hlines
  cases places with
  | nil => cases hlines
  | cons i places =>
    obtain ⟨hi, hplaces⟩ := List.cons.inj hlines
    exact ⟨i, places, hopen, fun j hj => hopen.lt_length j (List.mem_cons_of_mem i hj), hi, hplaces⟩

theorem passes (h : Follows ms b) {ns : List Mark} {b' : Builder} (hp : b.Passes ns b') :
    Follows (ms ++ ns) b' := by
  cases hp with
  | function hbranches _ =>
    rw [List.append_nil]
    exact ⟨h.stray, hbranches ▸ h.kept⟩
  | opened line c =>
    obtain ⟨places, hopen, hlines⟩ := h.kept
    have hends : ¬(Mark.branch .first c.formula? line).ends := by simp [Mark.ends]
    refine ⟨h.not_stray_concat fun hm => absurd hm hends, _, hopen.push hends, ?_⟩
    rw [List.map_cons, map_line_append hopen.lt_length, hlines]
    simp [Builder.openBranch, Mark.line]
  | @continued kind line c earlier closed hkind _ hclose =>
    obtain ⟨o, hb⟩ := closeBranch_branches hclose
    obtain ⟨i, places, hopen, hlt, _, hlines⟩ := h.uncons hb
    have hends : (Mark.branch kind c.formula? line).ends := by cases kind <;> trivial
    refine ⟨h.not_stray_concat fun _ => by simp [hb], _, hopen.replace hends rfl, ?_⟩
    rw [List.map_cons, map_line_append hlt, hlines]
    simp [Builder.openBranch, Mark.line]
  | @ended line earlier closed hclose =>
    obtain ⟨o, hb⟩ := closeBranch_branches hclose
    obtain ⟨i, places, hopen, hlt, _, hlines⟩ := h.uncons hb
    refine ⟨h.not_stray_concat fun _ => by simp [hb], places, hopen.pop rfl (by simp [Mark.begins]), ?_⟩
    rw [map_line_append hlt, hlines]

end Follows

section

variable [ParserStack]

/-- A run over readable directives follows them all, or stops at the first one that is stray. -/
theorem run_of_marks {landmarks : List Landmark} {ms ns : List Mark} {b : Builder}
    (hmarks : landmarks.flatMap Landmark.marks = ns.map .ok) (h : Follows ms b) :
    (∃ b', b.run landmarks = (b', none) ∧ Follows (ms ++ ns) b') ∨
      ∃ b' i m, b.run landmarks = (b', some (.unbalanced m.line)) ∧ (ms ++ ns)[i]? = some m ∧
        Stray (ms ++ ns) i ∧ ∀ j, j < i → ¬Stray (ms ++ ns) j := by
  induction landmarks generalizing ms ns b with
  | nil =>
    obtain rfl := List.map_eq_nil_iff.1 hmarks.symm
    exact .inl ⟨b, rfl, by rwa [List.append_nil]⟩
  | cons landmark landmarks ih =>
    rw [List.flatMap_cons] at hmarks
    -- what the first landmark carries has been read, whether or not the step succeeds
    obtain ⟨first, rest, rfl, hfirst, hrest⟩ := List.append_eq_map_iff.1 hmarks
    rw [Builder.run]
    rcases Builder.step_of_marks (b := b) hfirst.symm with
      ⟨b', hstep, hp⟩ | ⟨m, rfl, hends, hb, hstep⟩
    · rw [hstep, ← List.append_assoc]
      exact ih hrest.symm (h.passes hp)
    · rw [hstep]
      have hzero : openCount ms = 0 := by simp [h.openCount_eq, hb]
      refine .inr ⟨b, ms.length, m, rfl, by simp, (stray_length ms m rest).2 ⟨hends, hzero⟩, ?_⟩
      exact fun j hj => fun hstray => h.stray j ((stray_append hj _).1 hstray)

theorem marks_of_legible {d : Xml.Document} {ms : List Mark}
    (hlegible : AllLegible d.tag.line (.element d.tag d.children .nil))
    (hms : (directives d).map (·.mark d.tag.line) = ms.map .ok) :
    (landmarks d.tag.line (.element d.tag d.children .nil)).flatMap Landmark.marks =
      ms.map .ok := by
  rw [← hms]
  refine marks_landmarks (whole_landmarks hlegible fun o ho => ?_)
  have hmem : o.mark d.tag.line ∈ (directives d).map (·.mark d.tag.line) :=
    List.mem_map_of_mem ho
  rw [hms] at hmem
  obtain ⟨m, _, hm⟩ := List.mem_map.1 hmem
  exact ⟨m, hm.symm⟩

theorem result_of_follows (path sourcePath : String) {landmarks : List Landmark} {ms : List Mark}
    {b : Builder} (hrun : Builder.run {} landmarks = (b, none)) (h : Follows ms b) :
    (¬0 < openCount ms ∧ ∃ file, (assemble path sourcePath landmarks).result = .ok file) ∨
      (0 < openCount ms ∧ ∃ i m, ms[i]? = some m ∧ StillOpen ms i ∧
        (∀ j, i < j → ¬StillOpen ms j) ∧
        (assemble path sourcePath landmarks).result = .error (.unbalanced m.line)) := by
  have hcount := h.openCount_eq
  cases hb : b.branches with
  | nil => exact .inl ⟨by simp [hcount, hb], by simp [assemble, hrun, hb]⟩
  | cons o rest =>
    obtain ⟨i, places, hopen, _, hline, _⟩ := h.uncons hb
    obtain ⟨m, hm, hmline⟩ := Option.map_eq_some_iff.1 hline
    refine .inr ⟨by simp [hcount, hb], i, m, hm, (hopen.mem i).1 List.mem_cons_self, ?_, ?_⟩
    · intro j hij hj
      rcases List.mem_cons.1 ((hopen.mem j).2 hj) with rfl | hj
      · exact Nat.lt_irrefl _ hij
      · have := hopen.nested.2.1 j hj
        omega
    · simp [assemble, hrun, hb, hmline]

theorem unbalanced_iff_stray {path : String} {d : Xml.Document} {ms : List Mark}
    (hlegible : AllLegible d.tag.line (.element d.tag d.children .nil))
    (hms : (directives d).map (·.mark d.tag.line) = ms.map .ok) :
    ((∃ line, (ofDocument path d).result = .error (.unbalanced line)) ↔
      (∃ i, Stray ms i) ∨ 0 < openCount ms) ∧
    (∀ i m, ms[i]? = some m → Stray ms i → (∀ j, j < i → ¬Stray ms j) →
      (ofDocument path d).result = .error (.unbalanced m.line)) ∧
    ((∀ i, ¬Stray ms i) → 0 < openCount ms →
      ∃ i m, ms[i]? = some m ∧ StillOpen ms i ∧ (∀ j, i < j → ¬StillOpen ms j) ∧
        (ofDocument path d).result = .error (.unbalanced m.line)) ∧
    ((∀ i, ¬Stray ms i) → ¬0 < openCount ms → ∃ file, (ofDocument path d).result = .ok file) := by
  have hmarks := marks_of_legible hlegible hms
  rcases run_of_marks hmarks follows_empty with
    ⟨b, hrun, hfollows⟩ | ⟨b, i, m, hrun, hi, hstray, hfirst⟩
  · rw [List.nil_append] at hfollows
    have hnone := hfollows.stray
    rcases result_of_follows path (sourcePathOf path d.tag) hrun hfollows with
      ⟨hzero, file, hok⟩ | ⟨hpos, hopen⟩
    · refine ⟨⟨fun ⟨line, herror⟩ => ?_, ?_⟩, fun i _ _ hs => absurd hs (hnone i),
        fun _ hpos => absurd hpos hzero, fun _ _ => ⟨file, hok⟩⟩
      · rw [ofDocument, hok] at herror
        cases herror
      · rintro (⟨i, hs⟩ | hpos)
        · exact absurd hs (hnone i)
        · exact absurd hpos hzero
    · obtain ⟨_, m, _, _, _, herror⟩ := id hopen
      exact ⟨⟨fun _ => .inr hpos, fun _ => ⟨m.line, herror⟩⟩, fun i _ _ hs => absurd hs (hnone i),
        fun _ _ => hopen, fun _ hzero => absurd hpos hzero⟩
  · rw [List.nil_append] at hi hstray hfirst
    have herror : (ofDocument path d).result = .error (.unbalanced m.line) := by
      simp [ofDocument, assemble, hrun]
    refine ⟨⟨fun _ => .inl ⟨i, hstray⟩, fun _ => ⟨_, herror⟩⟩, fun j e he hs hbefore => ?_,
      fun hnone => absurd hstray (hnone i), fun hnone => absurd hstray (hnone i)⟩
    obtain rfl : j = i := by
      rcases Nat.lt_trichotomy j i with hj | hj | hj
      · exact absurd hs (hfirst j hj)
      · exact hj
      · exact absurd hstray (hbefore i hj)
    rw [hi] at he
    rw [herror, Option.some.inj he]

end

def missingEnd : Xml.Document :=
  let code (label : String) (line : Nat) (children next : Xml.Content) : Xml.Content :=
    .element ⟨⟨some "http://www.srcML.org/srcML/src", label⟩, [], line⟩ children next
  let cpp (label : String) (line : Nat) (children next : Xml.Content) : Xml.Content :=
    .element ⟨⟨some "http://www.srcML.org/srcML/cpp", label⟩, [], line⟩ children next
  ⟨⟨⟨some "http://www.srcML.org/srcML/src", "unit"⟩, [], 1⟩,
    code "function" 2 (code "name" 2 (.text "f".toList .nil) <|
      cpp "ifdef" 3 (cpp "directive" 3 .nil (.text "A".toList .nil)) <|
        cpp "else" 5 .nil .nil) .nil⟩

theorem unbalanced_iff_stray_missingEnd :
    (∃ line, (ofDocument "f.c.xml" missingEnd).result = .error (.unbalanced line)) ↔
      (∃ i, Stray [.branch .first (some (.var "A")) 3, .branch .last none 5] i) ∨
        0 < openCount [.branch .first (some (.var "A")) 3, .branch .last none 5] :=
  (unbalanced_iff_stray (by decide +kernel) (by rfl)).1

end Variability.Code
