import Variability.Proofs.Disk.Extension
import Variability.Proofs.Disk.Sources

set_option autoImplicit false

namespace Variability.Disk

variable {d : Disk} {working path folder : String} {places : List Place} {place : Place}

def without (d : Disk) (places : List Place) : Disk := ⟨d.entries.filter fun e => e.1 ∉ places⟩

theorem node?_without (h : place ∉ places) : (d.without places).node? place = d.node? place := by
  by_cases hroot : place = []
  · simp [node?, hroot]
  · have hfind : (d.without places).entries.find? (·.1 = place) = d.entries.find? (·.1 = place) := by
      rw [without, List.find?_filter]
      congr 1
      funext e
      by_cases he : e.1 = place <;> simp [he, h]
    rw [node?, node?, hfind]

theorem node?_without_self (h : place ∈ places) (hroot : place ≠ []) :
    (d.without places).node? place = none := by
  have hfind : (d.without places).entries.find? (·.1 = place) = none := by
    rw [without, List.find?_filter, List.find?_eq_none]
    intro e _ hboth
    obtain ⟨hnot, rfl⟩ : e.1 ∉ places ∧ e.1 = place := by simpa using hboth
    exact hnot h
  rw [node?, if_neg hroot, hfind]
  rfl

def LeavesFolders (d : Disk) (places : List Place) : Prop := ∀ place ∈ places, d.node? place ≠ some .folder

namespace LeavesFolders

variable (h : d.LeavesFolders places)

include h

theorem ne_root (hplace : place ∈ places) : place ≠ [] := by
  rintro rfl
  exact h [] hplace rfl

theorem agree : Agree (· ∈ places) d (d.without places) where
  folders place := by
    by_cases hplace : place ∈ places
    · simp [node?_without_self hplace (h.ne_root hplace), h place hplace]
    · rw [node?_without hplace]
  kept place hplace := node?_without hplace
  listed folder hfolder := by
    rw [without, List.filter_filter]
    refine List.filter_congr fun e _ => ?_
    by_cases hwithin : folder.isPrefixOf e.1
    · have hplace : e.1 ∉ places := fun hmem =>
        hfolder e.1 hmem (List.isPrefixOf_iff_prefix.1 hwithin)
      simp [hplace]
    · simp [hwithin]

theorem sources_without (hnames : d.ProperNames) (hworking : Path.isAbsolute working) (folder : String) :
    (d.without places).sources working folder =
      (d.sources working folder).filter fun source => placeOf working source.1 ∉ places := by
  have hnames' : (d.without places).ProperNames := fun e he => hnames e (List.mem_of_mem_filter he)
  have hentries : ((d.without places).entries.filter fun e => e.1 ∉ places) =
      d.entries.filter fun e => e.1 ∉ places := by
    simp [without, List.filter_filter]
  have hsame := h.agree.filter_sources_eq (· ∉ places) (fun _ => of_decide_eq_true) hentries hnames hnames'
    hworking folder
  have hkept : ∀ source ∈ (d.without places).sources working folder, placeOf working source.1 ∉ places := by
    intro source hsource hplace
    exact node?_ne_none_of_mem_sources hnames' hworking hsource
      (node?_without_self hplace (h.ne_root hplace))
  rw [← hsame]
  exact (List.filter_eq_self.2 fun source hsource => by simpa using hkept source hsource).symm

theorem write {text : String} {d' : Disk} (hplace : placeOf working path ∉ places)
    (hwrite : d.write working path text = .ok d') : d'.LeavesFolders places := by
  intro place hmem
  have hagree : Agree (· = placeOf working path) d d' := agree_write hwrite rfl
  rw [hagree.kept place fun heq => hplace (heq ▸ hmem)]
  exact h place hmem

end LeavesFolders

structure Clear (working : String) (places : List Place) (path : String) : Prop where
  avoids : Avoids working path (· ∈ places)
  file : path.toList.getLast? ≠ some '/'

theorem put_without (h : place ∉ places) (node : Node) :
    (d.put place node).without places = (d.without places).put place node :=
  congrArg Disk.mk (filter_putBy (fun other => decide (other ∉ places)) (decide_eq_true h) d.entries)

theorem write_without (hd : d.LeavesFolders places) (h : Clear working places path) (text : String) :
    (d.without places).write working path text =
      (d.write working path text).map fun d => d.without places := by
  rw [write, write, hd.agree.extends.target_eq h.avoids h.file]
  cases hplace : d.target working path with
  | error e => rfl
  | ok place =>
    obtain rfl := locate_eq_ok (target_eq_ok_iff.1 hplace).2.1
    exact congrArg Except.ok (put_without h.avoids.placeOf _).symm

/-- Steps do the same on both disks and tell the same. -/
theorem perform_without (hd : d.LeavesFolders places) {steps : List Step}
    (h : ∀ path text, .write path text ∈ steps → Clear working places path) :
    (d.without places).perform working steps =
      ((d.perform working steps).1, (d.perform working steps).2.without places) := by
  induction steps generalizing d with
  | nil => rfl
  | cons step steps ih =>
    have hsteps : ∀ path text, .write path text ∈ steps → Clear working places path :=
      fun path text hstep => h path text (List.mem_cons_of_mem _ hstep)
    cases step with
    | tell message => exact ih hd hsteps
    | write path text =>
      have hclear := h path text List.mem_cons_self
      rw [perform, perform, write_without hd hclear]
      cases hwrite : d.write working path text with
      | error e => rfl
      | ok d' => exact ih (hd.write hclear.avoids.placeOf hwrite) hsteps

theorem runScript_without (hd : d.LeavesFolders places) {s : Script Unit}
    (h : s.Writes (Clear working places)) :
    (d.without places).runScript working s =
      ((d.runScript working s).1, (d.runScript working s).2.without places) := by
  rw [runScript, runScript, perform_without hd h]
  rcases d.perform working s.steps with ⟨result, d'⟩
  cases result <;> rfl

theorem ProperNames.write {text : String} {d' : Disk} (h : d.ProperNames)
    (hwrite : d.write working path text = .ok d') : d'.ProperNames := by
  obtain ⟨-, -, -, rfl⟩ := write_eq_ok hwrite
  exact h.put (fun _ => isName_of_mem_placeOf) _

theorem ProperNames.runScript (h : d.ProperNames) (working : String) (s : Script Unit) :
    (d.runScript working s).2.ProperNames := by
  rw [disk_runScript]
  exact perform_keeps (P := ProperNames) (fun _ _ _ _ _ hwrite hnames => hnames.write hwrite) h

theorem isListed_of_mem_sources (hnames : d.ProperNames) (hworking : Path.isAbsolute working)
    {source : String × Option String} (h : source ∈ d.sources working folder) :
    isListed (placeOf working source.1) := by
  obtain ⟨-, e, he, names, hbelow, hlisted, hread⟩ := mem_sources_iff.1 h
  have hproper : ∀ name ∈ names, Path.IsName name := fun name hname =>
    hnames e he name (eq_of_fileBelow? hbelow ▸ List.mem_append_right _ hname)
  rw [(eq_of_readListed hread).1, placeOf_listedPath hworking folder hproper]
  have hne : names ≠ [] := by
    rintro rfl
    exact absurd hlisted (by decide)
  rwa [isListed_append _ hne]

theorem sources_runScript (hnames : d.ProperNames) (hworking : Path.isAbsolute working) {s : Script Unit}
    (h : s.Writes fun path => isListed (placeOf working path) = false) (folder : String) :
    (d.runScript working s).2.sources working folder = d.sources working folder := by
  have hagree : Agree (fun place => isListed place = false) d (d.runScript working s).2 := agree_runScript h
  have hnames' := hnames.runScript working s
  have hentries : ((d.runScript working s).2.entries.filter fun e => isListed e.1) =
      d.entries.filter fun e => isListed e.1 := by
    rw [disk_runScript]
    refine perform_keeps (P := fun d' => (d'.entries.filter fun e => isListed e.1) =
      d.entries.filter fun e => isListed e.1) (fun d₁ d₂ path text hmem hwrite hsame => ?_) rfl
    obtain ⟨-, -, -, rfl⟩ := write_eq_ok hwrite
    refine (filter_putBy_eq (fun e he => ?_) d₁.entries).trans hsame
    rw [show e.1 = placeOf working path from he]
    exact h path text hmem
  have hsame := hagree.filter_sources_eq isListed (fun place hplace => by simp [hplace]) hentries hnames
    hnames' hworking folder
  rwa [List.filter_eq_self.2 fun _ => isListed_of_mem_sources hnames' hworking,
    List.filter_eq_self.2 fun _ => isListed_of_mem_sources hnames hworking] at hsame

end Variability.Disk
