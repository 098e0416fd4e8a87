import Variability.Proofs.Code.Ownership

set_option autoImplicit false

namespace Variability.Code

theorem stillOpen_before_matched (outer : List Mark) {matched : List Mark} {m : Mark} (hm : m.begins)
    (h : Matched matched) :
    StillOpen (outer ++ m :: matched) outer.length ∧
      ∀ j, outer.length < j → ¬StillOpen (outer ++ m :: matched) j := by
  have hsplit : outer ++ m :: matched = (outer ++ [m]) ++ matched := by simp
  have hlength : (outer ++ [m]).length = outer.length + 1 := by simp
  have hbehind {j : Nat} (hj : outer.length < j) : ∃ k, j = (outer ++ [m]).length + k :=
    Nat.exists_eq_add_of_le (by omega)
  refine ⟨⟨⟨m, by simp, hm⟩, fun j e hj he hends hdepth => ?_⟩, fun j hj hopen => ?_⟩
  · obtain ⟨k, rfl⟩ := hbehind hj
    rw [hsplit, getElem?_stretch] at he
    rw [hsplit, take_stretch, ← hlength, List.take_left] at hdepth
    exact h.stray k ⟨e, he, hends, by omega⟩
  · obtain ⟨k, rfl⟩ := hbehind hj
    rw [hsplit] at hopen
    exact h.not_stillOpen k hopen.of_append

/-- The innermost block that is open after some directives, with which the file begins. -/
def SourceFile.InnermostOpen (file : SourceFile) (ms : List Mark) : Option Block → Prop
  | none => ∀ k, ¬StillOpen ms k
  | some b => ∃ k, StillOpen ms k ∧ (∀ j, k < j → ¬StillOpen ms j) ∧
      file.iterBlocks[(ms.take k).countP Mark.begins]? = some b

namespace Builder

variable {b b' : Builder} {ms : List Mark}

/-- A builder that has read some directives, and no other ones, from the beginning of a file. -/
structure HasRead (b : Builder) (ms : List Mark) : Prop where
  told : b.told = ms
  follows : Follows ms b
  sound : b.Sound
  numbered : b.Numbered

theorem HasRead.around (h : b.HasRead ms) :
    (b.branches = [] ∧ Matched ms) ∨
      ∃ o rest outer matched, b.branches = o :: rest ∧ ms = outer ++ o.block.mark :: matched ∧
        Matched matched ∧ (walkedBefore b.branches).length = outer.countP Mark.begins + 1 := by
  have hmatched := Forest.matched_unfold h.sound.finished
  have htold := h.told
  cases hb : b.branches with
  | nil =>
    rw [Builder.told, hb] at htold
    exact .inl ⟨rfl, htold ▸ hmatched⟩
  | cons o rest =>
    obtain ⟨outer, houter⟩ : ∃ outer, toldBefore b.branches = outer ++ [o.block.mark] :=
      ⟨_, by rw [hb, toldBefore, ← List.append_assoc, ← List.append_assoc]⟩
    have hcount := congrArg List.length (filter_toldBefore b.branches)
    have hbegins : o.block.mark.begins = true := rfl
    rw [List.length_map, houter, ← List.countP_eq_length_filter, List.countP_append,
      List.countP_singleton, if_pos hbegins] at hcount
    rw [Builder.told, houter, List.append_assoc] at htold
    exact .inr ⟨o, rest, outer, _, rfl, htold.symm, hmatched, by rw [← hb, ← hcount]⟩

/-- The blocks of the function with a number: a stretch of one level of the forest, with what is known
of the directives before and inside the function. -/
structure Stretch (whole : Forest) (i : Nat) (marksBefore marksInside : List Mark) where
  before : List Block
  enclosing : Option Block
  earlier : Forest
  blocks : Forest
  later : Forest
  behind : List Block
  inlaid : whole.Inlaid before enclosing earlier blocks later behind
  belongs : blocks.Belongs (· = some i) enclosing
  ownersBefore : ∀ b ∈ before ++ earlier.walk, b.owner ≠ some i
  ownersBehind : ∀ b ∈ later.walk ++ behind, b.owner ≠ some i
  begun : (before ++ earlier.walk).map Block.mark = marksBefore.filter Mark.begins
  unfolds : blocks.unfold [] = marksInside
  innermost : (enclosing = none ∧ Matched marksBefore) ∨
    ∃ b outer matched, enclosing = some b ∧ marksBefore = outer ++ b.mark :: matched ∧
      Matched matched ∧ before.length = outer.countP Mark.begins + 1

theorem presenceAround_begun (enclosing : Option Block) :
    presenceAround (enclosing.map Block.begun) = presenceAround enclosing := by
  cases enclosing <;> rfl

theorem HasRead.exists_stretch {whole blocks later : Forest} {before behind : List Block}
    {enclosing : Option Block} {marksBefore marksInside : List Mark} (h : b.HasRead marksBefore)
    (hinlaid : whole.Inlaid before enclosing b.finished blocks later behind)
    (hbegun : before.map Block.begun = (walkedBefore b.branches).map Block.begun)
    (henclosing : enclosing.map Block.begun = (Builder.around b.branches).map Block.begun)
    (hbelongs : blocks.Belongs (· = some b.functions.length) (Builder.around b.branches))
    (howners : ∀ k ∈ later.walk ++ behind, k.owner ≠ some b.functions.length)
    (hunfolds : blocks.unfold [] = marksInside) :
    ∃ s : Stretch whole b.functions.length marksBefore marksInside,
      presenceAround s.enclosing = b.presence := by
  have hwalked : (before ++ b.finished.walk).map Block.begun = b.walked.map Block.begun := by
    rw [walked, List.map_append, List.map_append, hbegun]
  have hownersBefore : ∀ k ∈ before ++ b.finished.walk, k.owner ≠ some b.functions.length := by
    intro k hk hown
    have hmem : k.begun ∈ b.walked.map Block.begun := hwalked ▸ List.mem_map_of_mem hk
    obtain ⟨k', hk', heq⟩ := List.mem_map.1 hmem
    have hlt := h.numbered.owners k'.owner (List.mem_map_of_mem hk') b.functions.length
      ((Block.owner_of_begun heq).trans hown)
    exact Nat.lt_irrefl _ hlt
  have hmarks : (before ++ b.finished.walk).map Block.mark = marksBefore.filter Mark.begins := by
    have hmap := congrArg (List.map Block.mark) hwalked
    rw [List.map_map, List.map_map] at hmap
    exact hmap.trans ((filter_told b).symm.trans (by rw [h.told]))
  have howner : (Builder.around b.branches).bind (·.owner) = enclosing.bind (·.owner) := by
    have hmap := congrArg (Option.bind · Block.owner) henclosing.symm
    simp only [Option.bind_map] at hmap
    exact hmap
  have hpresence : presenceAround enclosing = b.presence := by
    rw [← presenceAround_around, ← presenceAround_begun, henclosing, presenceAround_begun]
  refine ⟨⟨before, enclosing, b.finished, blocks, later, behind, hinlaid, hbelongs.replace howner,
    hownersBefore, howners, hmarks, hunfolds, ?_⟩, hpresence⟩
  rcases h.around with ⟨hnone, hmatched⟩ | ⟨o, rest, outer, matched, hsome, hms, hmatched, hlength⟩
  · rw [hnone] at henclosing
    exact .inl ⟨Option.map_eq_none_iff.1 henclosing, hmatched⟩
  · have hbefore := congrArg List.length hbegun
    rw [List.length_map, List.length_map, hlength] at hbefore
    rw [hsome] at henclosing
    obtain ⟨k, hk, hbegun⟩ := Option.map_eq_some_iff.1 henclosing
    exact .inr ⟨k, outer, matched, hk, by rw [hms, Block.mark_of_begun hbegun], hmatched, hbefore⟩

namespace Stretch

variable {whole : Forest} {i : Nat} {marksBefore marksInside : List Mark}

theorem innermostOpen (s : Stretch whole i marksBefore marksInside) {file : SourceFile}
    (hfile : file.blocks = whole) : file.InnermostOpen marksBefore s.enclosing := by
  rcases s.innermost with ⟨hnone, hmatched⟩ | ⟨k, outer, matched, hsome, hms, hmatched, hlength⟩
  · rw [hnone]
    exact hmatched.not_stillOpen
  · have hlast := s.inlaid.stands.around_eq
    obtain ⟨hopen, hinner⟩ := stillOpen_before_matched outer (m := k.mark) rfl hmatched
    rw [hsome] at hlast ⊢
    rw [hms]
    refine ⟨outer.length, hopen, hinner, ?_⟩
    rw [iterBlocks_eq_walk, hfile, s.inlaid.walk, List.append_assoc, List.take_left,
      List.getElem?_append_left (by omega), hlast, List.getLast?_eq_getElem?]
    congr 1
    omega

/-- The function with the number of a stretch has all its blocks, and no other ones. -/
theorem function {functions : List OpenFunction} {g : OpenFunction}
    (s : Stretch whole i marksBefore marksInside) (hg : functions[i]? = some g) :
    (ownedFunctions functions whole)[i]? =
      some ⟨g.name, g.lineStart, g.lineEnd, g.presence, s.blocks, s.blocks.walk⟩ := by
  obtain ⟨hchildren, hblocks⟩ :=
    s.inlaid.owned s.belongs s.ownersBefore s.ownersBehind
  rw [ownedFunctions, List.getElem?_mapIdx, hg, Option.map_some, hchildren, hblocks]

end Stretch

variable [ParserStack]

theorem hasRead_of_run {landmarks : List Landmark} (h : Builder.run {} landmarks = (b, none)) :
    ∃ ms, landmarks.flatMap Landmark.marks = ms.map .ok ∧ b.HasRead ms := by
  obtain ⟨ms, hms, htold⟩ := told_run h
  refine ⟨ms, hms, htold, ?_, sound_empty.run h, numbered_empty.run h⟩
  rcases run_of_marks hms follows_empty with ⟨b', hrun, hfollows⟩ | ⟨b', _, _, hrun, -⟩
  · rw [h] at hrun
    exact (Prod.mk.inj hrun).1 ▸ hfollows
  · rw [h] at hrun
    cases hrun

theorem function_of_step {m : Landmark} (h : b.step m = .ok b') (hm : m.marks = []) :
    b'.branches = b.branches ∧ b'.finished = b.finished := by
  obtain ⟨ms, hmarks, hp⟩ := passes_of_step h
  obtain rfl : ms = [] := List.map_eq_nil_iff.1 (hmarks.symm.trans hm)
  cases hp with
  | function hbranches hfinished => exact ⟨hbranches, hfinished⟩

/-- Directives that match, met inside a function, add blocks of this function to the level. -/
theorem stretch_of_run {landmarks : List Landmark} {i : Nat} {opened : List Nat}
    (hopen : b.openFunctions = i :: opened) (h : b.run landmarks = (b', none))
    (hdirectives : ∀ m ∈ landmarks, ∃ d line text, m = .directive d line text)
    (hms : landmarks.flatMap Landmark.marks = ms.map .ok) (hmatched : Matched ms) :
    b'.openFunctions = b.openFunctions ∧ b'.branches = b.branches ∧
      ∃ stretch : Forest, stretch.Anew ∧ stretch.Belongs (· = some i) (Builder.around b.branches) ∧
        b'.finished = b.finished.append stretch ∧ stretch.unfold [] = ms := by
  have hkeeps : ∀ k k' : Builder, ∀ m ∈ landmarks, k.openFunctions = i :: opened → k.step m = .ok k' →
      k'.openFunctions = i :: opened := by
    intro k k' m hm hk hstep
    obtain ⟨d, line, text, rfl⟩ := hdirectives m hm
    cases registers_of_step hstep with
    | directive hfunctions hopen => exact hopen.trans hk
  obtain ⟨hbranches, stretch, hanew, hbelongs, hfinished⟩ :=
    growsTo_of_run (p := (· = some i)) hkeeps (fun k hk => by rw [hk]; rfl) hopen h hms
      (show b.branches = [] ++ b.branches from rfl) (stays_zero.2 hmatched.stray)
      (by simpa using hmatched.count)
  have hfinished : b.finished.append stretch = b'.finished := hfinished
  refine ⟨(run_keeps hkeeps h hopen).trans hopen.symm, hbranches, stretch, hanew, hbelongs,
    hfinished.symm, ?_⟩
  obtain ⟨ms', hms', htold⟩ := told_run h
  obtain rfl : ms = ms' := map_ok_injective (hms.symm.trans hms')
  rw [told, told, hbranches, ← hfinished, Forest.unfold_append _ _ hanew, ← List.append_assoc] at htold
  exact List.append_cancel_left htold

/-- A function whose directives match leaves the open branches and functions as it found them. -/
theorem function_of_run {inside behind : List Landmark} {name : String} {line : Int} {lineFeeds : Nat}
    (h : b.run (.functionStart name line :: (inside ++ .functionEnd lineFeeds :: behind)) = (b', none))
    (hdirectives : ∀ m ∈ inside, ∃ d line text, m = .directive d line text)
    (hms : inside.flatMap Landmark.marks = ms.map .ok) (hmatched : Matched ms) :
    ∃ b₁ : Builder, b₁.run behind = (b', none) ∧ b₁.openFunctions = b.openFunctions ∧
      b.functions.length < b₁.functions.length ∧ b₁.branches = b.branches ∧
      ∃ blocks : Forest, blocks.Anew ∧
        blocks.Belongs (· = some b.functions.length) (Builder.around b.branches) ∧
        b₁.finished = b.finished.append blocks ∧ blocks.unfold [] = ms := by
  obtain ⟨started, hstart, h⟩ := run_cons_ok h
  obtain ⟨met, hinside, h⟩ := run_append_ok h
  obtain ⟨ended, hend, hbehind⟩ := run_cons_ok h
  obtain ⟨-, hopen⟩ | _ | _ := registers_of_step hstart
  obtain _ | ⟨-, hopenEnd⟩ | _ := registers_of_step hend
  obtain ⟨hbranches, hfinished⟩ := function_of_step hstart rfl
  obtain ⟨hbranchesEnd, hfinishedEnd⟩ := function_of_step hend rfl
  obtain ⟨hopenInside, hbranchesInside, blocks, hanew, hbelongs, hfinishedInside, hunfolds⟩ :=
    stretch_of_run hopen hinside hdirectives hms hmatched
  refine ⟨ended, hbehind, ?_, ?_, ?_, blocks, hanew, hbranches ▸ hbelongs, ?_, hunfolds⟩
  · rw [hopenEnd, hopenInside, hopen]
    rfl
  · have hlength := (registers_of_step hstart).length
    have hlengthInside := length_functions_run hinside
    have hlengthEnd := (registers_of_step hend).length
    simp only [Landmark.startsFunction, if_pos] at hlength
    omega
  · rw [hbranchesEnd, hbranchesInside, hbranches]
  · rw [hfinishedEnd, hfinishedInside, hfinished]

theorem function_begun {landmarks : List Landmark} {name : String} {line : Int}
    (h : b.run (.functionStart name line :: landmarks) = (b', none)) :
    (b'.functions[b.functions.length]?).map OpenFunction.begun =
      some ⟨name, line, line, b.presence⟩ := by
  obtain ⟨started, hstart, h⟩ := run_cons_ok h
  obtain ⟨hfunctions, -⟩ | _ | _ := registers_of_step hstart
  obtain ⟨more, hmore⟩ := functions_run h
  rw [← List.getElem?_map, ← hmore, hfunctions, List.append_assoc,
    List.getElem?_append_right (by simp)]
  simp

/-- What is met after a function has ended stands behind its blocks, and it owns nothing of it. -/
theorem inlaid_of_run {landmarks : List Landmark} {i : Nat} {earlier stretch : Forest}
    (hfinished : b.finished = earlier.append stretch) (hanew : stretch.Anew)
    (hended : i ∉ b.openFunctions) (hbegan : i < b.functions.length)
    (h : b.run landmarks = (b', none))
    (hms : landmarks.flatMap Landmark.marks = ms.map .ok) (hstays : Stays b.branches.length ms)
    (hend : b.branches.length + openCount ms = 0) :
    b'.branches = [] ∧ ∃ before enclosing later behind,
      b'.finished.Inlaid before enclosing earlier stretch later behind ∧
      before.map Block.begun = (walkedBefore b.branches).map Block.begun ∧
      enclosing.map Block.begun = (Builder.around b.branches).map Block.begun ∧
      ∀ k ∈ later.walk ++ behind, k.owner ≠ some i := by
  have hkeeps : ∀ k k' : Builder, ∀ m ∈ landmarks, i ∉ k.openFunctions ∧ i < k.functions.length →
      k.step m = .ok k' → i ∉ k'.openFunctions ∧ i < k'.functions.length := by
    rintro k k' m - ⟨hended, hbegan⟩ hstep
    have hregisters := registers_of_step hstep
    have hlength := hregisters.length
    refine ⟨?_, by omega⟩
    cases hregisters with
    | begins hfunctions hopen =>
      rw [hopen, List.mem_cons, not_or]
      exact ⟨Nat.ne_of_lt hbegan, hended⟩
    | ends hfunctions hopen => exact hopen ▸ fun hi => hended (List.mem_of_mem_tail hi)
    | directive hfunctions hopen => exact hopen ▸ hended
  obtain ⟨hbranches, later, hlater, hbelongs, hcloses⟩ :=
    growsTo_of_run (p := (· ≠ some i)) hkeeps (fun k hk hi => hk.1 (List.mem_of_mem_head? hi))
      ⟨hended, hbegan⟩ h hms (List.append_nil b.branches).symm hstays hend
  obtain ⟨before, enclosing, behind, hstands, hbefore, henclosing, hbehind⟩ := hcloses.stands
  rw [hfinished] at hstands
  refine ⟨hbranches, before, enclosing, later, behind, ⟨hstands, hanew, hlater⟩, hbefore, henclosing, ?_⟩
  exact List.forall_mem_append.2 ⟨hbelongs.owner, hbehind⟩

theorem exists_stretch {landmarks inside behind : List Landmark} {name : String} {line : Int}
    {lineFeeds : Nat} {marksBefore marksInside marksBehind : List Mark}
    (h : Builder.run {} (landmarks ++ .functionStart name line ::
      (inside ++ .functionEnd lineFeeds :: behind)) = (b, none))
    (hdirectives : ∀ m ∈ inside, ∃ d line text, m = .directive d line text)
    (hbefore : landmarks.flatMap Landmark.marks = marksBefore.map .ok)
    (hinside : inside.flatMap Landmark.marks = marksInside.map .ok)
    (hbehind : behind.flatMap Landmark.marks = marksBehind.map .ok)
    (hwhole : Matched (marksBefore ++ (marksInside ++ marksBehind))) (hmatched : Matched marksInside) :
    ∃ s : Stretch b.finished (landmarks.countP Landmark.startsFunction) marksBefore marksInside,
      (b.functions[landmarks.countP Landmark.startsFunction]?).map OpenFunction.begun =
        some ⟨name, line, line, presenceAround s.enclosing⟩ := by
  obtain ⟨b₀, hrun, h⟩ := run_append_ok h
  obtain ⟨ms, hms, hread⟩ := hasRead_of_run hrun
  obtain rfl : marksBefore = ms := map_ok_injective (hbefore.symm.trans hms)
  have hbegun := function_begun h
  obtain ⟨b₁, hrunBehind, hopen, hlength, hbranches, blocks, hanew, hbelongs, hfinished, hunfolds⟩ :=
    function_of_run h hdirectives hinside hmatched
  have hended : b₀.functions.length ∉ b₁.openFunctions := fun hi =>
    Nat.lt_irrefl _ (hread.numbered.opened _ (hopen ▸ hi))
  obtain ⟨hstays, hend⟩ := hwhole.afterwards hmatched
  rw [hread.follows.openCount_eq, ← hbranches] at hstays hend
  obtain ⟨-, before, enclosing, later, last, hinlaid, hwalked, henclosing, howners⟩ :=
    inlaid_of_run hfinished hanew hended hlength hrunBehind hbehind hstays hend
  rw [hbranches] at hwalked henclosing
  obtain ⟨s, hpresence⟩ :=
    hread.exists_stretch hinlaid hwalked henclosing hbelongs howners hunfolds
  have hnumber : landmarks.countP Landmark.startsFunction = b₀.functions.length := by
    rw [length_functions_run hrun]
    exact (Nat.zero_add _).symm
  rw [hnumber]
  exact ⟨s, hpresence ▸ hbegun⟩

end Builder

theorem start_of_finish {tag : Xml.Tag} {inside c : Xml.Content} (h : .finish tag inside ∈ events c) :
    .start tag inside ∈ events c := by
  induction c with
  | nil => cases h
  | text _ _ ih => exact ih h
  | comment _ ih => exact ih h
  | instruction _ ih => exact ih h
  | unknown _ _ ih => exact ih h
  | element k children next hc hn =>
    simp only [events, List.mem_cons, List.mem_append, reduceCtorEq, false_or] at h ⊢
    rcases h with h | h | h
    · exact Or.inr (Or.inl (hc h))
    · cases h
      exact Or.inl rfl
    · exact Or.inr (Or.inr (hn h))

namespace FunctionElement

variable {d : Xml.Document} (e : FunctionElement d)

theorem directives_inside (hplain : e.Plain)
    (h : Whole ((events e.inside).flatMap (Event.landmarks d.tag.line))) :
    ∀ m ∈ (events e.inside).flatMap (Event.landmarks d.tag.line),
      ∃ directive line text, m = .directive directive line text := by
  intro m hm
  obtain ⟨k, hk, hmk⟩ := List.mem_flatMap.1 hm
  have hwhole := whole_flatMap.1 h k hk
  have hnone {tag : Xml.Tag} {inside : Xml.Content} (hs : .start tag inside ∈ events e.inside) :
      roleOf? tag ≠ some .function := by
    simpa [Event.startsFunction] using hplain _ hs
  cases k with
  | start tag inside =>
    simp only [Event.landmarks] at hwhole hmk
    cases hrole : roleOf? tag with
    | none => simp [hrole, Whole] at hwhole
    | some r =>
      rw [hrole] at hmk
      cases r with
      | function => exact absurd hrole (hnone hk)
      | _ => cases hmk
  | finish tag inside =>
    simp only [Event.landmarks] at hwhole hmk
    cases hrole : roleOf? tag with
    | none => simp [hrole] at hmk
    | some r =>
      rw [hrole] at hwhole hmk
      cases r with
      | function => exact absurd hrole (hnone (start_of_finish hk))
      | other => cases hmk
      | directive directive =>
        obtain rfl := List.mem_singleton.1 hmk
        simp only [directiveMark] at hwhole ⊢
        cases hline : elementLine d.tag.line tag with
        | error fault => simp [hline, Whole] at hwhole
        | ok line => exact ⟨directive, line, _, rfl⟩

variable [ParserStack]

theorem landmarks_eq (h : Whole (landmarks d.tag.line (.element d.tag d.children .nil))) :
    ∃ name line lineFeeds, functionName e.inside = .ok name ∧
      elementLine d.tag.line e.tag = .ok line ∧
      landmarks d.tag.line (.element d.tag d.children .nil) =
        e.before.flatMap (Event.landmarks d.tag.line) ++ .functionStart name line ::
          ((events e.inside).flatMap (Event.landmarks d.tag.line) ++ .functionEnd lineFeeds ::
            e.behind.flatMap (Event.landmarks d.tag.line)) := by
  have hsplit := landmarks_eq_flatMap h
  have hdocument : events (.element d.tag d.children .nil) = e.before ++ .start e.tag e.inside ::
      (events e.inside ++ .finish e.tag e.inside :: e.behind) := e.split
  have hstart : Event.landmarks d.tag.line (.start e.tag e.inside) =
      [functionStart d.tag.line e.tag e.inside] := by simp [Event.landmarks, e.isFunction]
  have hfinish : Event.landmarks d.tag.line (.finish e.tag e.inside) =
      [.functionEnd (e.inside.chars.count '\n')] := by simp [Event.landmarks, e.isFunction]
  rw [hdocument] at hsplit
  simp only [List.flatMap_append, List.flatMap_cons, hstart, hfinish, List.singleton_append] at hsplit
  rw [hsplit, ← List.singleton_append, whole_append, whole_append] at h
  obtain ⟨name, line, hname, hline, hfunction⟩ := functionStart_of_whole h.2.1
  rw [hfunction] at hsplit
  exact ⟨name, line, _, hname, hline, hsplit⟩

/-- All chains with a directive inside the element lie wholly inside it. -/
def KeepsChains : Prop :=
  Code.KeepsChains (directiveMarks d) e.marksBefore.length
    (e.marksBefore.length + e.marksInside.length)

instance : Decidable e.KeepsChains :=
  inferInstanceAs (Decidable (Code.KeepsChains _ _ _))

/-- The function of an element, with the block around it and a stretch of blocks that is all it has. -/
structure Occupies (file : SourceFile) (f : Function) (enclosing : Option Block) : Prop where
  place : file.functions[e.index]? = some f
  name : functionName e.inside = .ok f.name
  line : elementLine d.tag.line e.tag = .ok f.lineStart
  walk : f.blocks = f.children.walk
  blocks : ∃ front rear, file.iterBlocks = front ++ (f.blocks ++ rear) ∧
    front.map Block.mark = e.marksBefore.filter Mark.begins ∧
    f.blocks.map Block.mark = e.marksInside.filter Mark.begins ∧
    rear.map Block.mark = e.marksBehind.filter Mark.begins
  unfolds : f.children.unfold [] = e.marksInside
  fits : f.children.Each Block.Fits enclosing []
  chains : ∀ c ∈ f.children.chains enclosing [], c ∈ file.chains
  innermost : file.InnermostOpen e.marksBefore enclosing
  presence : f.presence = presenceAround enclosing

variable {e}

theorem occupies_of_stretch {file : SourceFile} {g : OpenFunction} {name : String} {line : Int}
    (s : Builder.Stretch file.blocks e.index e.marksBefore e.marksInside)
    (hfits : file.blocks.Each Block.Fits none [])
    (hunfold : file.blocks.unfold [] = e.marksBefore ++ (e.marksInside ++ e.marksBehind))
    (hname : functionName e.inside = .ok name) (hline : elementLine d.tag.line e.tag = .ok line)
    (hplace : file.functions[e.index]? =
      some ⟨g.name, g.lineStart, g.lineEnd, g.presence, s.blocks, s.blocks.walk⟩)
    (hbegun : g.begun = ⟨name, line, line, presenceAround s.enclosing⟩) :
    e.Occupies file ⟨g.name, g.lineStart, g.lineEnd, g.presence, s.blocks, s.blocks.walk⟩
      s.enclosing := by
  obtain ⟨rfl, rfl, -, hpresence⟩ := OpenFunction.mk.inj hbegun
  have hmarksInside : s.blocks.walk.map Block.mark = e.marksInside.filter Mark.begins := by
    rw [← Forest.filter_unfold [], s.unfolds]
  refine ⟨hplace, hname, hline, rfl, ?_, s.unfolds, s.inlaid.each hfits, s.inlaid.chains,
    s.innermostOpen rfl, hpresence⟩
  refine ⟨s.before ++ s.earlier.walk, s.later.walk ++ s.behind, ?_, s.begun, hmarksInside, ?_⟩
  · rw [iterBlocks_eq_walk, s.inlaid.walk]
  · -- the marks of all blocks are known, and so are those before and inside
    have hall := Forest.filter_unfold [] file.blocks
    rw [hunfold, s.inlaid.walk, List.map_append, s.begun, List.map_append, hmarksInside,
      List.filter_append, List.filter_append] at hall
    exact (List.append_cancel_left (List.append_cancel_left hall)).symm

theorem exists_occupies {path : String} {file : SourceFile} (h : (ofDocument path d).result = .ok file)
    (hplain : e.Plain) (hkeeps : e.KeepsChains) : ∃ f enclosing, e.Occupies file f enclosing := by
  have hfits := fits_of_assemble h
  obtain ⟨b, hrun, hbranches, hfile⟩ := assemble_eq h
  obtain ⟨ms, hms, hread⟩ := Builder.hasRead_of_run hrun
  have hwhole := whole_of_marks hms
  obtain ⟨name, line, lineFeeds, hname, hline, hlandmarks⟩ := e.landmarks_eq hwhole
  rw [hlandmarks] at hrun hms hwhole
  obtain ⟨hwholeBefore, hwhole⟩ := whole_append.1 hwhole
  obtain ⟨hwholeInside, hwholeBehind⟩ := whole_append.1 hwhole.tail
  have hstart : (Landmark.functionStart name line).marks = [] := rfl
  simp only [List.flatMap_append, List.flatMap_cons, hstart, Landmark.marks_functionEnd,
    List.nil_append] at hms
  obtain ⟨ms₁, _, rfl, hbefore, hms⟩ := List.append_eq_map_iff.1 hms
  obtain ⟨ms₂, ms₃, rfl, hinside, hbehind⟩ := List.append_eq_map_iff.1 hms.symm
  obtain rfl : e.marksBefore = ms₁ := marksOf_of_marks hwholeBefore hbefore.symm
  obtain rfl : e.marksInside = ms₂ := marksOf_of_marks hwholeInside hinside.symm
  obtain rfl : e.marksBehind = ms₃ := marksOf_of_marks hwholeBehind.tail hbehind.symm
  have hmatched : Matched (e.marksBefore ++ (e.marksInside ++ e.marksBehind)) :=
    ⟨hread.follows.stray, by rw [hread.follows.openCount_eq, hbranches]; rfl⟩
  have hmatchedInside : Matched e.marksInside := by
    rw [KeepsChains, e.directiveMarks_eq] at hkeeps
    exact matched_inside hmatched hkeeps
  obtain ⟨s, hfunction⟩ : ∃ s : Builder.Stretch b.finished e.index e.marksBefore e.marksInside,
      (b.functions[e.index]?).map OpenFunction.begun =
        some ⟨name, line, line, presenceAround s.enclosing⟩ := by
    rw [index, ← startsFunction_flatMap_landmarks hwholeBefore]
    exact Builder.exists_stretch hrun (e.directives_inside hplain hwholeInside) hbefore.symm
      hinside.symm hbehind.symm hmatched hmatchedInside
  obtain ⟨g, hg, hbegun⟩ := Option.map_eq_some_iff.1 hfunction
  have htold := hread.told
  rw [Builder.told, hbranches] at htold
  subst hfile
  refine ⟨⟨g.name, g.lineStart, g.lineEnd, g.presence, s.blocks, s.blocks.walk⟩, s.enclosing, ?_⟩
  exact occupies_of_stretch s hfits htold hname hline (s.function hg) hbegun

end FunctionElement
end Variability.Code
