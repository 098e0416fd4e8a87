import Variability.Proofs.Disk.Sources
import Variability.Proofs.Xml.Unmarked

set_option autoImplicit false

namespace Variability

namespace Script

variable {α β : Type}

theorem result_bind_ok {s : Script α} {a : α} (h : s.result = .ok a) (f : α → Script β) :
    (s >>= f).result = (f a).result := by
  simp [Bind.bind, Script.bind, h]

theorem result_bind_error {s : Script α} {e : Failure} (h : s.result = .error e) (f : α → Script β) :
    (s >>= f).result = .error e := by
  simp [Bind.bind, Script.bind, h]

end Script

variable [ParserStack]

def parsedFiles : List (String × Option String) → Except Failure (List Code.SourceFile)
  | [] => .ok []
  | (path, text) :: rest =>
    match (Code.loadSourceFile path text).result with
    | .ok f => (parsedFiles rest).map (f :: ·)
    | .error .illFormed | .error (.unbalanced _) => parsedFiles rest
    | .error fault => .error (.unreadable fault)

theorem result_parseSources (total number : Nat) (sources : List (String × Option String)) :
    (parseSources total number sources).result = parsedFiles sources := by
  induction sources generalizing number with
  | nil => rfl
  | cons source rest ih =>
    obtain ⟨path, text⟩ := source
    rw [parseSources, parsedFiles]
    cases hread : (Code.loadSourceFile path text).result with
    | ok f =>
      have hrest := ih (number + 1)
      cases hparsed : parsedFiles rest with
      | error e =>
        rw [hparsed] at hrest
        exact Script.result_bind_error hrest _
      | ok files =>
        rw [hparsed] at hrest
        exact Script.result_bind_ok hrest _
    | error fault =>
      cases fault with
      | illFormed => exact ih (number + 1)
      | unbalanced line => exact ih (number + 1)
      | _ => rfl

/-- A text without a code model, since it is no document or its directives do not match. The path of the
file is not asked for that. A file that cannot be read is not meant. -/
def IsBroken (text : Option String) : Prop :=
  match (Code.loadSourceFile "" text).result with
  | .error .illFormed | .error (.unbalanced _) => True
  | _ => False

instance (text : Option String) : Decidable (IsBroken text) := by
  unfold IsBroken
  split <;> infer_instance

theorem fault_readSourceFile (path other text : String) (fault : Code.Fault) :
    (Code.readSourceFile path text).result = .error fault ↔
      (Code.readSourceFile other text).result = .error fault := by
  unfold Code.readSourceFile
  split
  · rfl
  · rfl
  · next d _ =>
    unfold Code.ofDocument Code.assemble
    split
    · rfl
    · split
      · rfl
      · simp

theorem fault_loadSourceFile (path other : String) (text : Option String) (fault : Code.Fault) :
    (Code.loadSourceFile path text).result = .error fault ↔
      (Code.loadSourceFile other text).result = .error fault := by
  cases text with
  | none => rfl
  | some text => exact fault_readSourceFile path other text fault

theorem isBroken_iff (path : String) (text : Option String) :
    IsBroken text ↔ (Code.loadSourceFile path text).result = .error .illFormed ∨
      ∃ line, (Code.loadSourceFile path text).result = .error (.unbalanced line) := by
  simp only [fault_loadSourceFile path "" text, IsBroken]
  split
  · next hread => simp [hread]
  · next line hread => simp [hread]
  · next hill hunbalanced =>
    simp only [false_iff, not_or, not_exists]
    exact ⟨hill, hunbalanced⟩

theorem parsedFiles_filter {keep : String × Option String → Bool} {sources : List (String × Option String)}
    (h : ∀ source ∈ sources, keep source = false → IsBroken source.2) :
    parsedFiles (sources.filter keep) = parsedFiles sources := by
  induction sources with
  | nil => rfl
  | cons source rest ih =>
    obtain ⟨hsource, hrest⟩ := List.forall_mem_cons.1 h
    by_cases hkeep : keep source
    · rw [List.filter_cons_of_pos hkeep, parsedFiles, parsedFiles, ih hrest]
    · have hbroken := (isBroken_iff source.1 source.2).1 (hsource (Bool.not_eq_true _ ▸ hkeep))
      rw [List.filter_cons_of_neg hkeep, ih hrest, parsedFiles]
      rcases hbroken with hread | ⟨line, hread⟩
      · rw [hread]
      · rw [hread]

namespace Disk

variable {d : Disk} {working folder : String} {place : Place} {text : String}

/-- A new file that is no document, but can be read, leaves the source files of a folder as they are. -/
theorem parsedFiles_put_new (hnames : d.ProperNames) (hworking : Path.isAbsolute working)
    {path : String} (hroot : placeOf working path ≠ [])
    (hnew : d.node? (placeOf working path) = none)
    (htext : ∀ source, (Code.readSourceFile source text).result = .error .illFormed)
    (hreadable : ∀ source ∈ (d.put (placeOf working path) (.file text)).sources working folder,
      placeOf working source.1 = placeOf working path → source.2 ≠ none) :
    parsedFiles ((d.put (placeOf working path) (.file text)).sources working folder) =
      parsedFiles (d.sources working folder) := by
  have hagree : Agree (· = placeOf working path) d (d.put (placeOf working path) (.file text)) :=
    agree_put hroot (by simp [hnew]) rfl
  have hentries : ((d.put (placeOf working path) (.file text)).entries.filter
      fun e => e.1 ≠ placeOf working path) = d.entries.filter fun e => e.1 ≠ placeOf working path := by
    rw [put_new hroot hnew, List.filter_append]
    simp
  have hsame := hagree.filter_sources_eq (· ≠ placeOf working path) (fun _ => of_decide_eq_true) hentries
    hnames (hnames.put (fun _ => isName_of_mem_placeOf) _) hworking folder
  -- the new file is no document, and all others were there before
  have hbroken : ∀ source ∈ (d.put (placeOf working path) (.file text)).sources working folder,
      decide (placeOf working source.1 ≠ placeOf working path) = false → IsBroken source.2 := by
    intro source hsource hother
    have hplace : placeOf working source.1 = placeOf working path := not_not.1 (of_decide_eq_false hother)
    obtain ⟨sourcePath, content⟩ := source
    cases content with
    | none => exact absurd rfl (hreadable _ hsource hplace)
    | some content =>
      have hnode := node?_of_mem_sources hsource
      rw [hplace, node?_put_self d hroot] at hnode
      obtain rfl : text = content := by simpa using hnode
      exact (isBroken_iff sourcePath _).2 (.inl (htext sourcePath))
  have hold : ((d.sources working folder).filter
      fun source => placeOf working source.1 ≠ placeOf working path) = d.sources working folder := by
    refine List.filter_eq_self.2 fun source hsource => decide_eq_true fun hplace => ?_
    exact node?_ne_none_of_mem_sources hnames hworking hsource (hplace ▸ hnew)
  rw [← parsedFiles_filter hbroken, hsame, hold]

end Disk
end Variability
