import Variability.Proofs.Condition.Rendering

set_option autoImplicit false

namespace Variability.Condition

/-- What may stand before and after the name in a directive. -/
inductive Filler where
  | blank
  | tab
  | lineFeed
  | comment (body : List Char) (unended : ¬['*', '/'] <:+: body)
  | continuedLine

namespace Filler

def spelling : Filler → List Char
  | .blank => [' ']
  | .tab => ['\t']
  | .lineFeed => ['\n']
  | .comment body _ => '/' :: '*' :: (body ++ ['*', '/'])
  | .continuedLine => ['\\', '\n']

def isContinuedLine : Filler → Bool
  | .continuedLine => true
  | _ => false

def uncommented : Filler → List Char
  | .comment _ _ => [' ']
  | f => f.spelling

def joined : Filler → List Char
  | .comment _ _ | .continuedLine => [' ']
  | f => f.spelling

theorem joined_eq (f : Filler) : ∃ c, isGap c ∧ f.joined = [c] := by
  cases f with
  | tab => exact ⟨'\t', rfl, rfl⟩
  | lineFeed => exact ⟨'\n', rfl, rfl⟩
  | _ => exact ⟨' ', rfl, rfl⟩

theorem gap_joined (fs : List Filler) : Gap (fs.flatMap joined) := by
  intro c hc
  obtain ⟨f, -, hmem⟩ := List.mem_flatMap.1 hc
  obtain ⟨d, hgap, heq⟩ := f.joined_eq
  rw [heq] at hmem
  rwa [List.mem_singleton.1 hmem]

theorem uncommented_eq_joined {f : Filler} (h : f.isContinuedLine = false) :
    f.uncommented = f.joined := by
  cases f with
  | continuedLine => cases h
  | _ => rfl

end Filler

theorem blockCommentEnd_append {body : List Char} (h : ¬['*', '/'] <:+: body) (rest : List Char) :
    blockCommentEnd (body ++ '*' :: '/' :: rest) = some (body.length + 2) := by
  induction body with
  | nil => rfl
  | cons c cs ih =>
    have hrest := ih fun hmem => h (hmem.trans (List.suffix_cons c cs).isInfix)
    rw [List.cons_append, blockCommentEnd, hrest]
    · rfl
    · rintro ds rfl hds
      cases cs with
      | nil => cases hds
      | cons d cs =>
        obtain ⟨rfl, -⟩ := List.cons.inj hds
        exact h ⟨[], cs, rfl⟩

theorem uncomment_filler (f : Filler) (rest : List Char) :
    uncomment (f.spelling ++ rest) = f.uncommented ++ uncomment rest := by
  cases f with
  | comment body hbody =>
    refine uncomment_comment (by simp [Filler.spelling]) ?_
    simp [Filler.spelling, commentLength, blockCommentEnd_append hbody]
  | _ => exact uncomment_append_plain (by decide) rest

theorem uncomment_fillers (fs : List Filler) (rest : List Char) :
    uncomment (fs.flatMap Filler.spelling ++ rest) =
      fs.flatMap Filler.uncommented ++ uncomment rest := by
  induction fs with
  | nil => rfl
  | cons f fs ih =>
    rw [List.flatMap_cons, List.append_assoc, uncomment_filler, ih, List.flatMap_cons,
      List.append_assoc]

theorem joinLines_fillers (fs : List Filler) (rest : List Char) :
    joinLines (fs.flatMap Filler.uncommented ++ rest) =
      fs.flatMap Filler.joined ++ joinLines rest := by
  induction fs with
  | nil => rfl
  | cons f fs ih =>
    rw [List.flatMap_cons, List.append_assoc, List.flatMap_cons, List.append_assoc, ← ih]
    cases f with
    | continuedLine => rfl
    | comment => exact joinLines_append_plain (by decide : '\\' ∉ [' ']) _
    | _ => exact joinLines_append_plain (by decide) _

theorem expandTabsFrom_append (column : Nat) (cs ds : List Char) :
    ∃ column', expandTabsFrom column (cs ++ ds) =
      expandTabsFrom column cs ++ expandTabsFrom column' ds := by
  induction cs generalizing column with
  | nil => exact ⟨column, rfl⟩
  | cons c cs ih =>
    by_cases hc : c = '\t'
    · subst hc
      obtain ⟨column', hrest⟩ := ih (column + (8 - column % 8))
      exact ⟨column', by simp [expandTabsFrom, hrest]⟩
    · obtain ⟨column', hrest⟩ := ih (if c = '\n' ∨ c = '\r' then 0 else column + 1)
      exact ⟨column', by simp [expandTabsFrom, hrest]⟩

theorem gap_expandTabsFrom {gap : List Char} (h : Gap gap) (column : Nat) :
    Gap (expandTabsFrom column gap) ∧ (gap ≠ [] → expandTabsFrom column gap ≠ []) := by
  fun_induction expandTabsFrom column gap with
  | case1 => exact ⟨h, fun hne => hne⟩
  | case2 column cs ih =>
    have hrest := (ih fun c hc => h c (List.mem_cons_of_mem _ hc)).1
    have hwidth : 8 - column % 8 ≠ 0 := by
      have := Nat.mod_lt column (by decide : 0 < 8)
      omega
    refine ⟨fun c hc => ?_, fun _ => by simp [hwidth]⟩
    rcases List.mem_append.1 hc with hblank | hc
    · rw [List.eq_of_mem_replicate hblank]
      rfl
    · exact hrest c hc
  | case3 column c cs _ ih =>
    have hrest := (ih fun c hc => h c (List.mem_cons_of_mem _ hc)).1
    exact ⟨List.forall_mem_cons.2 ⟨h c List.mem_cons_self, hrest⟩, fun _ => List.cons_ne_nil _ _⟩

theorem isBlank_of_isGap {c : Char} (h : isGap c) : Text.isBlank c := by
  rcases isGap_cases h with rfl | rfl | rfl | rfl <;> decide

section

variable {name : List Char}

def decorated (before : List Filler) (name : List Char) (after : List Filler) : List Char :=
  before.flatMap Filler.spelling ++ (name ++ after.flatMap Filler.spelling)

theorem Word.head_closed (h : Word name) : ∃ c, name.head? = some c ∧ Text.isBlank c = false := by
  obtain ⟨c, hc, hword⟩ := h.exists_head
  exact ⟨c, hc, not_isBlank_of_isWordChar hword⟩

theorem Word.not_mem (h : Word name) {c : Char} (hc : isWordChar c = false) : c ∉ name := by
  intro hmem
  rw [h.2 c hmem] at hc
  cases hc

theorem uncomment_decorated (h : Word name) (before after : List Filler) :
    uncomment (decorated before name after) =
      before.flatMap Filler.uncommented ++ (name ++ after.flatMap Filler.uncommented) := by
  have hafter := uncomment_fillers after []
  rw [List.append_nil] at hafter
  rw [decorated, uncomment_fillers, uncomment_append_plain (h.not_mem (by decide)), hafter]
  simp [uncomment, uncommentAfter]

theorem signature_decorated (h : Word name) {mark : List Char}
    (hslash : '/' ∉ mark) (hbackslash : '\\' ∉ mark)
    (hhead : ∃ c, mark.head? = some c ∧ Text.isBlank c = false) (before after : List Filler) :
    signature (mark ++ decorated before name after) =
      mark ++ (before.flatMap Filler.joined ++ name) := by
  have hafter := joinLines_fillers after []
  rw [List.append_nil] at hafter
  have hjoined : joinLines (uncomment (mark ++ decorated before name after)) =
      [] ++ ((mark ++ (before.flatMap Filler.joined ++ name)) ++ after.flatMap Filler.joined) := by
    rw [uncomment_append_plain hslash, uncomment_decorated h, joinLines_append_plain hbackslash,
      joinLines_fillers, joinLines_append_plain (h.not_mem (by decide)), hafter]
    simp [joinLines]
  have hblanks : ∀ c ∈ after.flatMap Filler.joined, Text.isBlank c := fun c hc =>
    isBlank_of_isGap (Filler.gap_joined after c hc)
  have hfirst : ∃ c, (mark ++ (before.flatMap Filler.joined ++ name)).head? = some c ∧
      Text.isBlank c = false := by
    obtain ⟨c, hc, hblank⟩ := hhead
    exact ⟨c, by rw [List.head?_append, hc]; rfl, hblank⟩
  have hlast := h.closed.append (mark ++ before.flatMap Filler.joined)
  rw [List.append_assoc] at hlast
  rw [signature, hjoined, Text.strip_around (by simp) hblanks hfirst hlast]

theorem source_decorated (h : Word name) (mark : List Char)
    (hslash : '/' ∉ mark) (hbackslash : '\\' ∉ mark) (htab : '\t' ∉ mark)
    (hhead : ∃ c, mark.head? = some c ∧ Text.isBlank c = false) (before after : List Filler) :
    ∃ gap, Gap gap ∧ gap ≠ [] ∧
      source (String.ofList (mark ++ ' ' :: decorated before name after)) =
        mark ++ (gap ++ name) := by
  have hspaced : mark ++ ' ' :: decorated before name after =
      mark ++ decorated (.blank :: before) name after := rfl
  have hgap : Gap ((Filler.blank :: before).flatMap Filler.joined) := Filler.gap_joined _
  rw [source, String.toList_ofList, hspaced, signature_decorated h hslash hbackslash hhead,
    expandTabs]
  obtain ⟨column, hmark⟩ :=
    expandTabsFrom_append 0 mark ((Filler.blank :: before).flatMap Filler.joined ++ name)
  obtain ⟨column', hblanks⟩ :=
    expandTabsFrom_append column ((Filler.blank :: before).flatMap Filler.joined) name
  obtain ⟨hexpanded, hne⟩ := gap_expandTabsFrom hgap column
  refine ⟨_, hexpanded, hne (by simp [Filler.joined, Filler.spelling]), ?_⟩
  rw [hmark, hblanks, expandTabsFrom_eq_self htab,
    expandTabsFrom_eq_self (h.not_mem (by decide))]

theorem spells_defined (h : isIdentifier name) {gap : List Char} (hgap : Gap gap)
    (hne : gap ≠ []) :
    Spells .defined ("defined".toList ++ (gap ++ name)) (.defined (.name (String.ofList name))) := by
  rw [← List.append_assoc]
  refine .defined hgap (fun c hc => ?_) (.operand (.name h))
  have hend : isWordChar c = false :=
    head_gap_append hgap (fun _ => not_isWordChar_of_isGap) (fun hnil => absurd hnil hne) c hc
  simp [hend]

theorem scan_defined (h : Word name) {gap : List Char} (hgap : Gap gap) (hne : gap ≠ []) :
    Token.scan ("defined".toList ++ (gap ++ name)) =
      ([.word "defined".toList, .word name], []) := by
  have hkeyword : Word "defined".toList := ⟨by decide, List.all_eq_true.1 (by decide)⟩
  have hend : ∀ c ∈ (gap ++ name).head?, isWordChar c = false :=
    head_gap_append hgap (fun _ => not_isWordChar_of_isGap) fun hnil => absurd hnil hne
  have hnone : Token.scan [] = ([], []) := scan_of_gap (by simp [Gap])
  have hname : Token.scan name = ([.word name], []) := by
    have hscan : Token.scan (name ++ []) = _ := scan_word h (by simp)
    rwa [List.append_nil, hnone] at hscan
  rw [scan_word hkeyword hend, scan_gap hgap, hname]
  rfl

theorem ofName_decorated (h : Word name) (before after : List Filler) (wrap : Formula → Formula) :
    ofName (String.ofList (decorated before name after)) wrap =
      .parsed (wrap (.var (String.ofList (Text.strip
        (before.flatMap Filler.uncommented ++ (name ++ after.flatMap Filler.uncommented)))))) := by
  rw [ofName, String.toList_ofList, uncomment_decorated h]
  split
  · next hempty =>
    obtain ⟨c, hc, hblank⟩ := h.head_closed
    have hmem : c ∈ before.flatMap Filler.uncommented ++
        (name ++ after.flatMap Filler.uncommented) :=
      List.mem_append_right _ (List.mem_append_left _ (List.mem_of_mem_head? hc))
    have hkept := Text.mem_strip hmem hblank
    rw [hempty] at hkept
    cases hkept
  · rfl

theorem blanks_uncommented {fs : List Filler} (h : ∀ f ∈ fs, f.isContinuedLine = false) :
    ∀ c ∈ fs.flatMap Filler.uncommented, Text.isBlank c := by
  intro c hc
  obtain ⟨f, hf, hmem⟩ := List.mem_flatMap.1 hc
  rw [Filler.uncommented_eq_joined (h f hf)] at hmem
  exact isBlank_of_isGap (Filler.gap_joined fs c (List.mem_flatMap.2 ⟨f, hf, hmem⟩))

/-- The backslash of a continued line is no blank, so it stays. -/
theorem strip_decorated_iff (h : Word name) (before after : List Filler) :
    Text.strip (before.flatMap Filler.uncommented ++ (name ++ after.flatMap Filler.uncommented)) =
        name ↔ ∀ f ∈ before ++ after, f.isContinuedLine = false := by
  constructor
  · intro hstrip f hf
    cases f with
    | continuedLine =>
      have hbackslash : '\\' ∈ before.flatMap Filler.uncommented ++
          (name ++ after.flatMap Filler.uncommented) := by
        have hmem : '\\' ∈ Filler.continuedLine.uncommented := List.mem_cons_self
        rcases List.mem_append.1 hf with hf | hf
        · exact List.mem_append_left _ (List.mem_flatMap.2 ⟨_, hf, hmem⟩)
        · exact List.mem_append_right _ (List.mem_append_right _ (List.mem_flatMap.2 ⟨_, hf, hmem⟩))
      have hkept := Text.mem_strip hbackslash (by decide)
      rw [hstrip] at hkept
      exact absurd hkept (h.not_mem (by decide))
    | _ => rfl
  · intro hnone
    obtain ⟨hbefore, hafter⟩ := List.forall_mem_append.1 hnone
    exact Text.strip_around (blanks_uncommented hbefore) (blanks_uncommented hafter) h.head_closed
      h.closed

variable [ParserStack]

theorem ofExpression_of_spells {text : String} {e : Expression} (h : Spells .not (source text) e)
    (hnone : e.literals = []) (hfew : (Token.scan (source text)).1.length ≤ shallowNesting) :
    ofExpression text = .parsed e.toFormula := by
  have hempty : Gap [] := by simp [Gap]
  have hderives : Derives (source text) e :=
    ⟨[], source text, [], by simp, hempty, hempty, h.ofNot .disjunction⟩
  refine (ofExpression_eq_parsed_iff (ParserStack.exhausts_of_length_le hfew)).2
    ⟨?_, e, hderives, rfl⟩
  rw [hasOverlong_of_derives hderives, hnone]
  rfl

theorem ofExpression_defined (h : isIdentifier name) (before after : List Filler) :
    ofExpression (String.ofList ("defined ".toList ++ decorated before name after)) =
      .parsed (.var (String.ofList name)) := by
  obtain ⟨gap, hgap, hne, hsource⟩ :=
    source_decorated (isIdentifier_word h) "defined".toList (by decide) (by decide)
      (by decide) ⟨'d', rfl, by decide⟩ before after
  have hspells := (spells_defined h hgap hne).positive
  have hscan := scan_defined (isIdentifier_word h) hgap hne
  rw [← hsource] at hspells hscan
  exact ofExpression_of_spells hspells rfl (by rw [hscan]; exact (by decide : 2 ≤ shallowNesting))

theorem ofExpression_not_defined (h : isIdentifier name) (before after : List Filler) :
    ofExpression (String.ofList ("!defined ".toList ++ decorated before name after)) =
      .parsed (.neg (.var (String.ofList name))) := by
  obtain ⟨gap, hgap, hne, hsource⟩ :=
    source_decorated (isIdentifier_word h) "!defined".toList (by decide) (by decide)
      (by decide) ⟨'!', rfl, by decide⟩ before after
  have hnone : Gap [] := by simp [Gap]
  have hspells := Spells.not hnone (by simp) (spells_defined h hgap hne).positive
  have hkeyword : ∀ c ∈ ("defined".toList ++ (gap ++ name)).head?, goesOn c = false := by
    intro c hc
    obtain rfl := Option.some.inj hc
    rfl
  have hscan := scan_symbol (by decide : (['!'], Token.not) ∈ symbols) hkeyword
  rw [scan_defined (isIdentifier_word h) hgap hne] at hscan
  rw [show '!' :: [] ++ ("defined".toList ++ (gap ++ name)) = "!defined".toList ++ (gap ++ name)
    from rfl, ← hsource] at hspells
  rw [show ['!'] ++ ("defined".toList ++ (gap ++ name)) = "!defined".toList ++ (gap ++ name)
    from rfl, ← hsource] at hscan
  exact ofExpression_of_spells hspells rfl (by rw [hscan]; exact (by decide : 3 ≤ shallowNesting))

/-- A name between blanks, comments and continued lines. Behind `defined` it is read as it is. Tested
by its directive it is the text without comments and outer blanks, which is the name exactly if no line
is continued; so then, and only then, both ways of asking agree. -/
theorem ofDirective_decorated (h : isIdentifier name)
    (before after : List Filler) :
    ofDirective .ifExpression (String.ofList ("defined ".toList ++ decorated before name after)) =
        .parsed (.var (String.ofList name)) ∧
      ofDirective .ifExpression
          (String.ofList ("!defined ".toList ++ decorated before name after)) =
        .parsed (.neg (.var (String.ofList name))) ∧
      ∃ asked,
        ofDirective .ifdef (String.ofList (decorated before name after)) = .parsed (.var asked) ∧
        ofDirective .ifndef (String.ofList (decorated before name after)) =
          .parsed (.neg (.var asked)) ∧
        asked.toList = Text.strip (before.flatMap Filler.uncommented ++
          (name ++ after.flatMap Filler.uncommented)) ∧
        (asked = String.ofList name ↔ ∀ f ∈ before ++ after, f.isContinuedLine = false) := by
  have hword := isIdentifier_word h
  refine ⟨ofExpression_defined h before after, ofExpression_not_defined h before after, _,
    ofName_decorated hword before after id, ofName_decorated hword before after Formula.negate,
    String.toList_ofList, ?_⟩
  rw [String.ofList_inj, strip_decorated_iff hword]

end

def continuedName : String := "\t/* x\\\n*/A \\\n "

theorem ofDirective_decorated_continued :
    isIdentifier ['A'] ∧
      ofDirective .ifExpression ("defined " ++ continuedName) = .parsed (.var "A") ∧
      ofDirective .ifExpression ("!defined " ++ continuedName) = .parsed (.neg (.var "A")) ∧
      ofDirective .ifdef continuedName = .parsed (.var "A \\") ∧
      ofDirective .ifndef continuedName = .parsed (.neg (.var "A \\")) := by
  have hname : isIdentifier ['A'] := by decide
  obtain ⟨hdefined, hnot, asked, hifdef, hifndef, hasked, -⟩ :=
    ofDirective_decorated hname [.tab, .comment [' ', 'x', '\\', '\n'] (by decide)]
      [.blank, .continuedLine, .blank]
  have hstripped : asked = "A \\" := by
    rw [← String.toList_inj, hasked]
    decide +kernel
  rw [hstripped] at hifdef hifndef
  exact ⟨hname, hdefined, hnot, hifdef, hifndef⟩

end Variability.Condition
