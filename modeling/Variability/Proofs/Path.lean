import Variability.Path
import Variability.Proofs.Delimited.Plain

/-!
Where paths lead. A path is walked part by part, and two dots lead back to the folder before.
-/

set_option autoImplicit false

namespace Variability

namespace Path

def enter (place : List String) (part : String) : List String :=
  if part = "" ∨ part = "." then place else if part = ".." then place.dropLast else place ++ [part]

def walk (place parts : List String) : List String := parts.foldl enter place

/-- Where a path leads, seen from a folder. -/
def resolve (place : List String) (path : String) : List String :=
  walk (if isAbsolute path then [] else place) (parts path)

def IsName (name : String) : Prop := name ≠ "" ∧ name ≠ "." ∧ name ≠ ".." ∧ '/' ∉ name.toList

instance (name : String) : Decidable (IsName name) := inferInstanceAs (Decidable (_ ∧ _))

theorem enter_name {place : List String} {name : String} (h : IsName name) :
    enter place name = place ++ [name] := by
  obtain ⟨hempty, hdot, hdots, -⟩ := h
  simp [enter, hempty, hdot, hdots]

@[simp] theorem enter_empty (place : List String) : enter place "" = place := by simp [enter]

theorem walk_append (place ps qs : List String) :
    walk place (ps ++ qs) = walk (walk place ps) qs := List.foldl_append

theorem walk_names {names : List String} (h : ∀ name ∈ names, IsName name) (place : List String) :
    walk place names = place ++ names := by
  induction names generalizing place with
  | nil => simp [walk]
  | cons name names ih =>
    obtain ⟨hname, hnames⟩ := List.forall_mem_cons.1 h
    rw [walk, List.foldl_cons, ← walk, ih hnames, enter_name hname]
    simp

theorem parts_append (p q : String) : parts (p ++ "/" ++ q) = parts p ++ parts q := by
  simp [parts, String.toList_append, Delimited.cellsOf_append]

theorem parts_of_getLast_slash {p : String} (h : p.toList.getLast? = some '/') :
    ∃ ps, parts p = ps ++ [""] ∧ ∀ q, parts (p ++ q) = ps ++ parts q := by
  obtain ⟨cs, hcs⟩ := List.getLast?_eq_some_iff.1 h
  refine ⟨(Delimited.cellsOf '/' cs).map String.ofList, ?_, fun q => ?_⟩
  · simp [parts, hcs, Delimited.cellsOf_append, Delimited.cellsOf]
  · simp [parts, String.toList_append, hcs, Delimited.cellsOf_append]

theorem isAbsolute_append {p : String} (h : p ≠ "") (q : String) :
    isAbsolute (p ++ q) = isAbsolute p := by
  have hne : p.toList ≠ [] := by simpa using h
  obtain ⟨c, cs, hcs⟩ := List.exists_cons_of_ne_nil hne
  simp [isAbsolute, String.toList_append, hcs]

theorem join_absolute {p q : String} (h : isAbsolute q) : join p q = q := if_pos h

theorem join_empty {q : String} (h : ¬ isAbsolute q) : join "" q = q := by
  rw [join, if_neg h, if_pos (.inl rfl), String.empty_append]

theorem utf8ByteSize_le_join {p q : String} (h : ¬ isAbsolute q) :
    p.utf8ByteSize ≤ (join p q).utf8ByteSize := by
  rw [join, if_neg h]
  split <;> simp only [String.utf8ByteSize_append] <;> omega

theorem parts_join {p q : String} (hp : p ≠ "") (hq : ¬ isAbsolute q) :
    isAbsolute (join p q) = isAbsolute p ∧
      ∃ before, parts (join p q) = before ++ parts q ∧ (parts p = before ∨ parts p = before ++ [""]) := by
  rw [join, if_neg hq]
  split
  · next hslash =>
    obtain ⟨before, hparts, hjoin⟩ := parts_of_getLast_slash (hslash.resolve_left hp)
    exact ⟨isAbsolute_append hp q, before, hjoin q, .inr hparts⟩
  · rw [parts_append, String.append_assoc]
    exact ⟨isAbsolute_append hp _, parts p, rfl, .inl rfl⟩

theorem walk_of_parts {path : String} {before : List String}
    (h : parts path = before ∨ parts path = before ++ [""]) (place : List String) :
    walk place (parts path) = walk place before := by
  rcases h with h | h
  · rw [h]
  · rw [h, walk_append]
    simp [walk]

@[simp] theorem resolve_empty (place : List String) : resolve place "" = place := by
  simp [resolve, isAbsolute, parts, Delimited.cellsOf, walk]

theorem resolve_join (place : List String) (p q : String) :
    resolve place (join p q) = resolve (resolve place p) q := by
  by_cases hq : isAbsolute q
  · simp [join_absolute hq, resolve, hq]
  · by_cases hp : p = ""
    · rw [hp, join_empty hq, resolve_empty]
    · obtain ⟨habsolute, before, hjoin, hparts⟩ := parts_join hp hq
      rw [resolve.eq_1 (resolve place p), if_neg hq, resolve, resolve, habsolute, hjoin, walk_append,
        walk_of_parts hparts]

theorem IsName.slash_not_mem {name : String} (h : IsName name) : '/' ∉ name.toList := h.2.2.2

theorem parts_name {name : String} (h : IsName name) : parts name = [name] := by
  simp [parts, Delimited.cellsOf_eq_singleton h.slash_not_mem]

theorem isAbsolute_name {name : String} (h : IsName name) : isAbsolute name = false := by
  rw [← Bool.not_eq_true]
  intro hslash
  have hhead : name.toList.head? = some '/' := by simpa [isAbsolute] using hslash
  exact h.slash_not_mem (List.mem_of_mem_head? hhead)

theorem resolve_name {name : String} (h : IsName name) (place : List String) :
    resolve place name = place ++ [name] := by
  rw [resolve, if_neg (by simp [isAbsolute_name h]), parts_name h, walk_names (by simpa using h)]

theorem resolve_names {names : List String} (h : ∀ name ∈ names, IsName name) (place : List String)
    (path : String) : resolve place (names.foldl join path) = resolve place path ++ names := by
  induction names generalizing path with
  | nil => simp
  | cons name names ih =>
    obtain ⟨hname, hnames⟩ := List.forall_mem_cons.1 h
    rw [List.foldl_cons, ih hnames, resolve_join, resolve_name hname]
    simp

theorem ne_empty_of_isAbsolute {p : String} (h : isAbsolute p) : p ≠ "" := by
  rintro rfl
  cases h

/-- Taking a part as normalising does leads where walking it leads; two dots lead from the root to the
root. -/
theorem walk_addPart {absolute : Bool} {place before : List String}
    (hplace : absolute → place = []) (hbefore : ∀ p ∈ before, p ≠ "" ∧ p ≠ ".") (part : String) :
    walk place (addPart absolute before part).reverse = enter (walk place before.reverse) part := by
  by_cases hpart : part = "" ∨ part = "."
  · simp [addPart, enter, hpart]
  · by_cases hdots : part = ".."
    · subst hdots
      cases before with
      | nil => cases absolute <;> simp_all [addPart, walk, enter]
      | cons last others =>
        by_cases hlast : last = ".."
        · subst hlast
          simp [addPart, walk, enter]
        · have hclean := hbefore last List.mem_cons_self
          simp [addPart, walk, enter, hlast, hclean]
    · simp [addPart, walk, enter, hpart, hdots]

theorem walk_normalParts {path : String} (place : List String) (h : isAbsolute path → place = []) :
    walk place (normalParts path) = walk place (parts path) := by
  suffices hall : ∀ ps before : List String, (∀ p ∈ before, p ≠ "" ∧ p ≠ ".") →
      walk place (ps.foldl (addPart (isAbsolute path)) before).reverse =
        walk (walk place before.reverse) ps by
    exact hall (parts path) [] (by simp)
  intro ps
  induction ps with
  | nil => exact fun _ _ => rfl
  | cons part ps ih =>
    intro before hbefore
    rw [List.foldl_cons, ih _ (addPart_clean hbefore), walk_addPart h hbefore]
    rfl

theorem slash_not_mem_of_mem_parts {path part : String} (h : part ∈ parts path) :
    '/' ∉ part.toList := by
  obtain ⟨cell, hcell, rfl⟩ := List.mem_map.1 h
  simpa using Delimited.separator_not_mem_of_mem_cellsOf hcell

theorem mem_addPart {absolute : Bool} {before : List String} {part p : String}
    (h : p ∈ addPart absolute before part) : p = ".." ∨ p = part ∨ p ∈ before := by
  unfold addPart at h
  split at h
  · exact .inr (.inr h)
  · split at h
    · rcases List.mem_cons.1 h with rfl | h
      · exact .inr (.inl rfl)
      · exact .inr (.inr h)
    · cases before with
      | nil => cases absolute <;> simp_all
      | cons last others =>
        simp only at h
        split at h
        · rcases List.mem_cons.1 h with rfl | h
          · exact .inl rfl
          · exact .inr (.inr h)
        · exact .inr (.inr (List.mem_cons_of_mem _ h))

theorem slash_not_mem_of_mem_normalParts {path part : String} (h : part ∈ normalParts path) :
    '/' ∉ part.toList := by
  suffices hall : ∀ ps before : List String, (∀ p ∈ before, '/' ∉ p.toList) →
      (∀ p ∈ ps, '/' ∉ p.toList) →
      ∀ p ∈ ps.foldl (addPart (isAbsolute path)) before, '/' ∉ p.toList by
    exact hall (parts path) [] (by simp) (fun p => slash_not_mem_of_mem_parts) part
      (List.mem_reverse.1 h)
  intro ps
  induction ps with
  | nil => exact fun _ hbefore _ => hbefore
  | cons part ps ih =>
    intro before hbefore hps
    obtain ⟨hpart, hps⟩ := List.forall_mem_cons.1 hps
    refine ih _ (fun p hp => ?_) hps
    rcases mem_addPart hp with rfl | rfl | hp
    · decide
    · exact hpart
    · exact hbefore p hp

theorem parts_intercalate {names : List String} (hne : names ≠ [])
    (h : ∀ name ∈ names, '/' ∉ name.toList) : parts ("/".intercalate names) = names := by
  induction names with
  | nil => exact absurd rfl hne
  | cons name names ih =>
    obtain ⟨hname, hnames⟩ := List.forall_mem_cons.1 h
    have hparts : parts name = [name] := by simp [parts, Delimited.cellsOf_eq_singleton hname]
    cases names with
    | nil => simpa using hparts
    | cons next names =>
      rw [String.intercalate_cons_cons, parts_append, hparts, ih (by simp) hnames]
      rfl

theorem isAbsolute_iff_root (path : String) :
    (isAbsolute path = false ∧ root path = "") ∨
      (isAbsolute path = true ∧ (root path = "/" ∨ root path = "//")) := by
  unfold isAbsolute root
  split
  · simp_all
  · simp_all
  · simp_all
  · next hother =>
    cases h : path.toList with
    | nil => simp
    | cons c cs =>
      have hc : c ≠ '/' := by
        rintro rfl
        exact hother cs h
      simp [hc]

theorem empty_mem_parts {path : String} (h : isAbsolute path) : "" ∈ parts path := by
  have hhead : path.toList.head? = some '/' := by simpa [isAbsolute] using h
  obtain ⟨cs, hcs⟩ := List.head?_eq_some_iff.1 hhead
  simp [parts, hcs, Delimited.cellsOf]

theorem walk_still {still : List String} (h : ∀ part ∈ still, part = "" ∨ part = ".") (place : List String) :
    walk place still = place := by
  induction still with
  | nil => rfl
  | cons part still ih =>
    obtain ⟨hpart, hstill⟩ := List.forall_mem_cons.1 h
    rw [walk, List.foldl_cons, ← walk, enter, if_pos hpart, ih hstill]

theorem isAbsolute_eq_false {path : String} (h : "" ∉ parts path) : isAbsolute path = false :=
  Bool.not_eq_true _ ▸ mt empty_mem_parts h

theorem parts_slash (path : String) : parts ("/" ++ path) = "" :: parts path := by
  simp [parts, String.toList_append, Delimited.cellsOf]

/-- A normal path has the normal parts, and before them at most parts that lead nowhere. -/
theorem parts_normalize (path : String) :
    isAbsolute (normalize path) = isAbsolute path ∧
      ∃ still, parts (normalize path) = still ++ normalParts path ∧
        ∀ part ∈ still, part = "" ∨ part = "." := by
  have hempty : "" ∉ normalParts path := fun hmem => (normalParts_clean path "" hmem).1 rfl
  have hinside : normalParts path ≠ [] → parts ("/".intercalate (normalParts path)) = normalParts path :=
    fun hne => parts_intercalate hne fun name => slash_not_mem_of_mem_normalParts
  obtain ⟨still, hparts, hstill⟩ : ∃ still, parts ("/".intercalate (normalParts path)) =
      still ++ normalParts path ∧ ∀ part ∈ still, part = "" ∨ part = "." := by
    by_cases hnil : normalParts path = []
    · exact ⟨[""], by rw [hnil]; rfl, by simp⟩
    · exact ⟨[], hinside hnil, by simp⟩
  rcases isAbsolute_iff_root path with ⟨habsolute, hroot⟩ | ⟨habsolute, hroot⟩
  · rw [normalize, hroot, String.empty_append, habsolute]
    by_cases hnil : normalParts path = []
    · rw [hnil]
      exact ⟨rfl, ["."], rfl, by simp⟩
    · have hrelative := isAbsolute_eq_false (hinside hnil ▸ hempty)
      have htext : "/".intercalate (normalParts path) ≠ "" := by
        intro htext
        have hone := hinside hnil
        rw [htext] at hone
        exact hempty (hone ▸ List.mem_singleton_self _)
      rw [if_neg htext]
      exact ⟨hrelative, still, hparts, hstill⟩
  · have hslashes : ∀ t : String, "//" ++ t = "/" ++ ("/" ++ t) := fun t => by
      rw [← String.append_assoc]
      rfl
    rw [habsolute]
    rcases hroot with hroot | hroot
    · refine ⟨by simp [normalize, hroot, isAbsolute, String.toList_append], "" :: still, ?_, ?_⟩
      · simp [normalize, hroot, parts_slash, hparts]
      · simpa using hstill
    · refine ⟨by simp [normalize, hroot, isAbsolute, String.toList_append], "" :: "" :: still, ?_, ?_⟩
      · simp [normalize, hroot, hslashes, parts_slash, hparts]
      · simpa using hstill

theorem resolve_normalize (place : List String) (path : String) :
    resolve place (normalize path) = resolve place path := by
  obtain ⟨habsolute, still, hparts, hstill⟩ := parts_normalize path
  rw [resolve, resolve, habsolute, hparts, walk_append, walk_still hstill]
  exact walk_normalParts _ fun h => if_pos h

/-- Going along a path from a folder, a place is reached. -/
def Visits (start : List String) (path : String) (place : List String) : Prop :=
  ∃ ps, ps <+: parts path ∧ walk (if isAbsolute path then [] else start) ps = place

section Visiting

variable {start place : List String} {p q path : String}

theorem Visits.join_left (hp : p ≠ "") (hq : ¬ isAbsolute q) (h : Visits start p place) :
    Visits start (join p q) place := by
  obtain ⟨habsolute, before, hjoin, hparts⟩ := parts_join hp hq
  obtain ⟨ps, hps, rfl⟩ := h
  rw [Visits, habsolute, hjoin]
  rcases hparts with hparts | hparts
  · exact ⟨ps, (hparts ▸ hps).trans (List.prefix_append _ _), rfl⟩
  · rcases List.prefix_concat_iff.1 (hparts ▸ hps) with rfl | hbefore
    · refine ⟨before, List.prefix_append _ _, ?_⟩
      rw [walk_append]
      simp [walk]
    · exact ⟨ps, hbefore.trans (List.prefix_append _ _), rfl⟩

theorem Visits.join_right (h : Visits (resolve start p) q place) : Visits start (join p q) place := by
  obtain ⟨qs, hqs, rfl⟩ := h
  by_cases hq : isAbsolute q
  · rw [join_absolute hq]
    exact ⟨qs, hqs, by simp [hq]⟩
  · by_cases hp : p = ""
    · subst hp
      rw [join_empty hq]
      exact ⟨qs, hqs, by simp [hq]⟩
    · obtain ⟨habsolute, before, hjoin, hparts⟩ := parts_join hp hq
      rw [Visits, habsolute, hjoin]
      refine ⟨before ++ qs, List.prefix_append_right_inj _ |>.2 hqs, ?_⟩
      rw [walk_append, if_neg hq, resolve, walk_of_parts hparts]

theorem Visits.of_join (h : Visits start (join p q) place) :
    Visits start p place ∨ Visits (resolve start p) q place := by
  obtain ⟨ps, hps, rfl⟩ := h
  by_cases hq : isAbsolute q
  · rw [join_absolute hq] at hps ⊢
    exact .inr ⟨ps, hps, by simp [hq]⟩
  · by_cases hp : p = ""
    · subst hp
      rw [join_empty hq] at hps ⊢
      exact .inr ⟨ps, hps, by simp [hq]⟩
    · obtain ⟨habsolute, before, hjoin, hparts⟩ := parts_join hp hq
      rw [habsolute]
      rw [hjoin] at hps
      rcases List.prefix_or_prefix_of_prefix hps (List.prefix_append before (parts q)) with
        hbefore | ⟨qs, rfl⟩
      · refine .inl ⟨ps, hbefore.trans ?_, rfl⟩
        rcases hparts with hparts | hparts
        · exact hparts ▸ List.prefix_rfl
        · exact hparts ▸ List.prefix_append _ _
      · refine .inr ⟨qs, (List.prefix_append_right_inj before).1 hps, ?_⟩
        rw [walk_append, if_neg hq, resolve, walk_of_parts hparts]

theorem Visits.of_join_or (hp : p ≠ "") (hsort : isAbsolute path = isAbsolute q)
    (h : Visits start (join p path) place) :
    Visits start (join p q) place ∨ Visits (resolve start p) path place := by
  by_cases hpath : isAbsolute path
  · obtain ⟨ps, hps, rfl⟩ := h
    rw [join_absolute hpath] at hps ⊢
    exact .inr ⟨ps, hps, by simp [hpath]⟩
  · exact h.of_join.imp_left (Visits.join_left hp (hsort ▸ hpath))

theorem Visits.of_name {name : String} (hname : IsName name) (h : Visits start name place) :
    place = start ∨ place = start ++ [name] := by
  obtain ⟨ps, hps, rfl⟩ := h
  rw [parts_name hname] at hps
  rw [if_neg (by simp [isAbsolute_name hname])]
  rcases List.prefix_cons_iff.1 hps with rfl | ⟨qs, rfl, hqs⟩
  · exact .inl rfl
  · obtain rfl := List.prefix_nil.1 hqs
    exact .inr (walk_names (by simpa using hname) _)

theorem Visits.of_dots (h : Visits start ".." place) : place = start ∨ place = start.dropLast := by
  obtain ⟨ps, hps, rfl⟩ := h
  rw [if_neg (by decide)]
  rcases List.prefix_cons_iff.1 (hps : ps <+: [".."]) with rfl | ⟨qs, rfl, hqs⟩
  · exact .inl rfl
  · obtain rfl := List.prefix_nil.1 hqs
    exact .inr rfl

theorem addPart_cases (absolute : Bool) (before : List String) (part : String) :
    addPart absolute before part = before ∨ (∃ p, addPart absolute before part = p :: before) ∨
      addPart absolute before part = before.tail := by
  unfold addPart
  split
  · exact .inl rfl
  · split
    · exact .inr (.inl ⟨part, rfl⟩)
    · cases before with
      | nil => cases absolute <;> simp
      | cons last others =>
        by_cases hlast : last = ".." <;> simp [hlast]

theorem prefix_addPart {absolute : Bool} {before : List String} {part : String} {qs : List String}
    (h : qs <+: (addPart absolute before part).reverse) :
    qs <+: before.reverse ∨ qs = (addPart absolute before part).reverse := by
  rcases addPart_cases absolute before part with hsame | ⟨p, hpush⟩ | hpop
  · exact .inl (hsame ▸ h)
  · rw [hpush, List.reverse_cons] at h ⊢
    exact (List.prefix_concat_iff.1 h).symm
  · rw [hpop] at h
    exact .inl (h.trans (List.reverse_prefix.2 (List.tail_suffix before)))

theorem walk_prefix_normalParts (h : isAbsolute path → start = []) {qs : List String}
    (hqs : qs <+: normalParts path) : ∃ ps, ps <+: parts path ∧ walk start ps = walk start qs := by
  suffices hall : ∀ rest before walked : List String, (∀ p ∈ before, p ≠ "" ∧ p ≠ ".") →
      walk start before.reverse = walk start walked →
      (∀ qs, qs <+: before.reverse → ∃ ps, ps <+: walked ∧ walk start ps = walk start qs) →
      ∀ qs, qs <+: (rest.foldl (addPart (isAbsolute path)) before).reverse →
        ∃ ps, ps <+: walked ++ rest ∧ walk start ps = walk start qs by
    exact hall (parts path) [] [] (by simp) rfl (fun qs hqs => ⟨qs, hqs, rfl⟩) qs hqs
  intro rest
  induction rest with
  | nil => exact fun before walked _ _ hbefore => by simpa using hbefore
  | cons part rest ih =>
    intro before walked hclean hwalk hbefore
    have hstep : walk start (addPart (isAbsolute path) before part).reverse =
        walk start (walked ++ [part]) := by
      rw [walk_addPart h hclean, hwalk, walk_append]
      rfl
    have hrest := ih _ (walked ++ [part]) (addPart_clean hclean) hstep fun qs hqs => by
      rcases prefix_addPart hqs with hold | rfl
      · obtain ⟨ps, hps, hplace⟩ := hbefore qs hold
        exact ⟨ps, hps.trans (List.prefix_append _ _), hplace⟩
      · exact ⟨walked ++ [part], List.prefix_rfl, hstep.symm⟩
    simpa using hrest

theorem Visits.of_normalize (h : Visits start (normalize path) place) : Visits start path place := by
  obtain ⟨habsolute, still, hparts, hstill⟩ := parts_normalize path
  obtain ⟨ps, hps, rfl⟩ := h
  rw [habsolute]
  rcases List.prefix_or_prefix_of_prefix (hparts ▸ hps) (List.prefix_append still (normalParts path)) with
    hbefore | ⟨qs, rfl⟩
  · exact ⟨[], List.nil_prefix, (walk_still (fun part hpart => hstill part (hbefore.subset hpart)) _).symm⟩
  · rw [hparts] at hps
    have hstart : isAbsolute path → (if isAbsolute path then [] else start) = [] := fun h => if_pos h
    obtain ⟨ps, hprefix, hplace⟩ :=
      walk_prefix_normalParts hstart ((List.prefix_append_right_inj still).1 hps)
    exact ⟨ps, hprefix, by rw [walk_append, walk_still hstill, hplace]⟩

end Visiting

theorem normalParts_join {name : String} (hname : IsName name) (p : String) :
    ∃ before, normalParts (join p name) = before ++ [name] := by
  obtain ⟨before, hparts⟩ : ∃ before, parts (join p name) = before ++ [name] := by
    have hrelative : ¬ isAbsolute name := by simp [isAbsolute_name hname]
    by_cases hp : p = ""
    · exact ⟨[], by rw [hp, join_empty hrelative, parts_name hname, List.nil_append]⟩
    · obtain ⟨-, before, hparts, -⟩ := parts_join hp hrelative
      exact ⟨before, by rw [hparts, parts_name hname]⟩
  obtain ⟨hempty, hdot, hdots, -⟩ := hname
  refine ⟨(before.foldl (addPart (isAbsolute (join p name))) []).reverse, ?_⟩
  rw [normalParts, hparts, List.foldl_append, List.foldl_cons, List.foldl_nil, ← List.reverse_cons]
  simp [addPart, hempty, hdot, hdots]

theorem getLast?_beside {folder name : String} (hname : IsName name) :
    (beside folder name).toList.getLast? ≠ some '/' := by
  obtain ⟨before, hbefore⟩ := normalParts_join hname (join folder "..")
  obtain ⟨front, hfront⟩ : ∃ front, "/".intercalate (before ++ [name]) = front ++ name := by
    by_cases hne : before = []
    · exact ⟨"", by rw [hne, List.nil_append, String.intercalate_singleton, String.empty_append]⟩
    · exact ⟨_, by rw [String.intercalate_append_of_ne_nil hne (List.cons_ne_nil _ _),
        String.intercalate_singleton]⟩
  intro hslash
  rw [beside, normalize, hbefore, hfront, ← String.append_assoc] at hslash
  split at hslash
  · exact absurd hslash (by decide)
  · rw [String.toList_append, List.getLast?_append] at hslash
    cases hlast : name.toList.getLast? with
    | none => exact hname.1 (by simpa using hlast)
    | some c =>
      rw [hlast, Option.some_or] at hslash
      exact hname.slash_not_mem (List.mem_of_getLast? (hlast.trans hslash))

theorem resolve_dots (place : List String) : resolve place ".." = place.dropLast := by
  simp [resolve, isAbsolute, parts, Delimited.cellsOf, walk, enter]

theorem resolve_beside (place : List String) (folder : String) {name : String} (h : IsName name) :
    resolve place (beside folder name) = (resolve place folder).dropLast ++ [name] := by
  rw [beside, resolve_normalize, resolve_join, resolve_join, resolve_name h, resolve_dots]

def ofNames (names : List String) : String := "/" ++ "/".intercalate names

theorem isAbsolute_ofNames (names : List String) : isAbsolute (ofNames names) := by
  simp [isAbsolute, ofNames, String.toList_append]

theorem join_ofNames_right (folder : String) (names : List String) :
    join folder (ofNames names) = ofNames names := by
  rw [join, if_pos (isAbsolute_ofNames names)]

variable {names : List String} {name : String}

theorem parts_ofNames (h : ∀ name ∈ names, IsName name) (hne : names ≠ []) :
    parts (ofNames names) = "" :: names := by
  rw [ofNames, parts_slash, parts_intercalate hne fun name hname => (h name hname).slash_not_mem]

theorem ofNames_concat (hne : names ≠ []) (name : String) :
    ofNames (names ++ [name]) = ofNames names ++ ("/" ++ name) := by
  rw [ofNames, ofNames, String.intercalate_append_of_ne_nil hne (List.cons_ne_nil _ _)]
  simp only [String.intercalate_singleton, String.append_assoc]

theorem join_ofNames (h : ∀ name ∈ names, IsName name) (hname : IsName name) :
    join (ofNames names) name = ofNames (names ++ [name]) := by
  rw [join, if_neg (by simp [isAbsolute_name hname])]
  by_cases hne : names = []
  · subst hne
    have hroot : ofNames [] = "" ∨ (ofNames []).toList.getLast? = some '/' := .inr (by decide)
    rw [if_pos hroot]
    simp [ofNames]
  · have hlast : ¬ (ofNames names = "" ∨ (ofNames names).toList.getLast? = some '/') := by
      rintro (hempty | hslash)
      · have habsolute := isAbsolute_ofNames names
        rw [hempty] at habsolute
        cases habsolute
      · -- the last part would be empty
        obtain ⟨before, hparts, -⟩ := parts_of_getLast_slash hslash
        rw [parts_ofNames h hne] at hparts
        have hend := congrArg List.getLast? hparts
        rw [List.getLast?_concat, List.getLast?_cons_of_ne_nil hne] at hend
        exact (h "" (List.mem_of_getLast? hend)).1 rfl
    rw [if_neg hlast, ofNames_concat hne, String.append_assoc]

theorem foldl_addPart_names {absolute : Bool} (h : ∀ name ∈ names, IsName name) (before : List String) :
    names.foldl (addPart absolute) before = names.reverse ++ before := by
  induction names generalizing before with
  | nil => rfl
  | cons name names ih =>
    obtain ⟨⟨hempty, hdot, hdots, -⟩, hnames⟩ := List.forall_mem_cons.1 h
    have hadd : addPart absolute before name = name :: before := by simp [addPart, hempty, hdot, hdots]
    rw [List.foldl_cons, hadd, ih hnames]
    simp

theorem normalize_ofNames (h : ∀ name ∈ names, IsName name) : normalize (ofNames names) = ofNames names := by
  by_cases hne : names = []
  · subst hne
    decide
  · have hparts : normalParts (ofNames names) = names := by
      rw [normalParts, parts_ofNames h hne, List.foldl_cons]
      have hstart : addPart (isAbsolute (ofNames names)) [] "" = [] := by simp [addPart]
      rw [hstart, foldl_addPart_names h, List.append_nil, List.reverse_reverse]
    have hroot : root (ofNames names) = "/" := by
      obtain ⟨first, others, rfl⟩ := List.exists_cons_of_ne_nil hne
      obtain ⟨hempty, -, -, hslash⟩ := h first List.mem_cons_self
      obtain ⟨c, cs, hfirst⟩ := List.exists_cons_of_ne_nil (by simpa using hempty : first.toList ≠ [])
      obtain ⟨rest, hrest⟩ : ∃ rest, (ofNames (first :: others)).toList = '/' :: c :: rest := by
        cases others with
        | nil => exact ⟨cs, by simp [ofNames, String.toList_append, hfirst]⟩
        | cons next others =>
          exact ⟨_, by
            rw [ofNames, String.intercalate_cons_cons]
            simp only [String.toList_append, hfirst]
            rfl⟩
      have hc : c ≠ '/' := by
        rintro rfl
        exact hslash (hfirst ▸ List.mem_cons_self)
      unfold root
      rw [hrest]
      simp [hc]
    have htext : ofNames names ≠ "" := by
      intro hempty
      have habsolute := isAbsolute_ofNames names
      rw [hempty] at habsolute
      cases habsolute
    rw [normalize, hroot, hparts, ← ofNames, if_neg htext]

theorem resolve_ofNames (h : ∀ name ∈ names, IsName name) (place : List String) :
    resolve place (ofNames names) = names := by
  rw [resolve, if_pos (isAbsolute_ofNames names)]
  by_cases hne : names = []
  · subst hne
    decide
  · rw [parts_ofNames h hne, walk, List.foldl_cons, enter_empty, ← walk, walk_names h, List.nil_append]

end Path
end Variability
