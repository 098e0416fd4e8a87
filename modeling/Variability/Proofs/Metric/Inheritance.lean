import Variability.Proofs.Code.FunctionBlocks
import Variability.Proofs.Code.Presence
import Variability.Proofs.Metric.Consistency
import Variability.Proofs.Metric.Counted

set_option autoImplicit false

namespace Variability.Code

variable {model : Option Model} {around : Option Block} {earlier : List Block} {a b : Block}

theorem countedIn_ne_nil_of_names {c c' : Option Formula}
    (h : ∀ name ∈ conditionNames c, name ∈ conditionNames c') (hc : countedIn model c ≠ []) :
    countedIn model c' ≠ [] :=
  List.length_pos_iff.1 (Nat.lt_of_lt_of_le (List.length_pos_iff.2 hc) (length_countedIn_le h))

theorem Block.isPoint_iff : b.isPoint model ↔ countedIn model b.presence ≠ [] := by
  simp [Block.isPoint]

namespace Block.Fits

theorem mem_names (h : b.Fits around earlier) {name : String} :
    name ∈ conditionNames b.presence ↔
      name ∈ conditionNames (presenceAround around) ∨
        ∃ e ∈ earlier ++ [b], name ∈ conditionNames e.condition := by
  rw [h.presence, mem_conditionNames_branchPresence]
  simp [or_and_right, exists_or]

theorem isPoint_of_around (h : b.Fits (some a) earlier) (ha : a.isPoint model) : b.isPoint model :=
  Block.isPoint_iff.2 (countedIn_ne_nil_of_names (fun _ hname => h.mem_names.2 (.inl hname))
    (Block.isPoint_iff.1 ha))

theorem isPoint_of_condition (h : b.Fits around earlier) {e : Block} (he : e ∈ earlier ++ [b])
    (hcounted : countedIn model e.condition ≠ []) : b.isPoint model :=
  Block.isPoint_iff.2 (countedIn_ne_nil_of_names (fun _ hname => h.mem_names.2 (.inr ⟨e, he, hname⟩))
    hcounted)

end Block.Fits

def Route.path (r : Route) : List Block := (r.enclosing ++ [r.last]).map (·.taken)

def Route.depth (model : Option Model) (r : Route) : Nat := r.path.countP (·.isPoint model)

/-- Inside a variation point there are only variation points. -/
def Descends (model : Option Model) (path : List Block) : Prop :=
  path.Pairwise fun a b => a.isPoint model → b.isPoint model

theorem descends_concat {path : List Block} (h : Descends model path)
    (hb : ∀ a ∈ path.getLast?, a.isPoint model → b.isPoint model) : Descends model (path ++ [b]) := by
  refine List.pairwise_append.2 ⟨h, List.pairwise_singleton _ _, fun a ha c hc hpoint => ?_⟩
  obtain rfl := List.mem_singleton.1 hc
  obtain ⟨front, last, rfl⟩ := (List.eq_nil_or_concat' path).resolve_left (List.ne_nil_of_mem ha)
  have hlast : last.isPoint model := by
    rcases List.mem_append.1 ha with ha | ha
    · exact (List.pairwise_append.1 h).2.2 a ha last (List.mem_singleton_self last) hpoint
    · exact List.mem_singleton.1 ha ▸ hpoint
  exact hb last (by simp) hlast

/-- The variation points on a way down come last, so they are those below and with the first one. -/
theorem Descends.split {path : List Block} (h : Descends model path) :
    ∃ outside points, path = outside ++ points ∧ (∀ b ∈ outside, b.isPoint model = false) ∧
      (∀ b ∈ points, b.isPoint model) ∧ path.countP (·.isPoint model) = points.length := by
  induction path with
  | nil => exact ⟨[], [], rfl, by simp, by simp, rfl⟩
  | cons b path ih =>
    obtain ⟨hb, hpath⟩ := List.pairwise_cons.1 h
    by_cases hpoint : b.isPoint model
    · have hall : ∀ c ∈ b :: path, c.isPoint model :=
        List.forall_mem_cons.2 ⟨hpoint, fun c hc => hb c hc hpoint⟩
      exact ⟨[], b :: path, rfl, by simp, hall, List.countP_eq_length.2 hall⟩
    · obtain ⟨outside, points, rfl, houtside, hpoints, hcount⟩ := ih hpath
      refine ⟨b :: outside, points, rfl, ?_, hpoints, ?_⟩
      · exact List.forall_mem_cons.2 ⟨by simpa using hpoint, houtside⟩
      · rw [List.countP_cons_of_neg hpoint, hcount]

theorem Descends.last {enclosing : List Fork} {k l : Fork}
    (h : Descends model ((enclosing ++ [l]).map (·.taken))) (hk : k ∈ enclosing)
    (hpoint : k.taken.isPoint model) : l.taken.isPoint model := by
  rw [List.map_append] at h
  exact (List.pairwise_append.1 h).2.2 _ (List.mem_map_of_mem hk) _ (by simp) hpoint

theorem Route.depth_of_isPoint {r : Route} (h : r.last.taken.isPoint model) :
    r.depth model = r.enclosing.countP (·.taken.isPoint model) + 1 := by
  rw [depth, path, List.countP_map, List.countP_append, List.countP_singleton]
  exact congrArg _ (if_pos h)

theorem Route.depth_inside {r r' : Route} (h : r'.enclosing = r.enclosing ++ [r.last])
    (hpoint : r'.last.taken.isPoint model) : r'.depth model = r.depth model + 1 := by
  rw [depth_of_isPoint hpoint, h, depth, path, List.countP_map]
  rfl

theorem Forest.depths_eq_map_depth (model : Option Model) (f : Forest) :
    f.depths model 0 =
      ((f.routes [] []).filter (·.last.taken.isPoint model)).map (·.depth model) := by
  have hdepths := f.depths_eq_map_routes model [] []
  rw [List.countP_nil] at hdepths
  rw [hdepths]
  refine List.map_congr_left fun r hr => ?_
  exact (Route.depth_of_isPoint (List.mem_filter.1 hr).2).symm

theorem Forest.descends_routes {f : Forest}
    (h : f.Each (fun around _ b => ∀ a ∈ around, a.isPoint model → b.isPoint model) none []) :
    ∀ r ∈ f.routes [] [], Descends model r.path := by
  intro r hr
  have houtside : Descends model (([] : List Fork).map (·.taken)) := List.Pairwise.nil
  have hall := Forest.forall_routes
    (Q := fun enclosing => Descends model (enclosing.map (·.taken)))
    (fun enclosing earlier b hq hb => by
      rw [List.map_append]
      exact descends_concat hq (by simpa using hb))
    houtside h
  exact (hall r hr).2.2

theorem Forest.Each.pick {P : Option Block → Block → Prop} (houtermost : ∀ b, P none b) (p : Block → Bool)
    {chain chain' : List Block} {f : Forest} (h : f.Each (fun around _ b => P around b) around chain) :
    (f.pick p).Each (fun around _ b => P around b) none chain' := by
  induction f generalizing around chain chain' with
  | nil => trivial
  | block b children next hchildren hnext =>
    obtain ⟨-, hinside, hbehind⟩ := h
    rw [Forest.pick]
    split
    · exact ⟨houtermost b, hinside, (each_append _ _ _ _).2 ⟨hchildren hinside, hnext hbehind⟩⟩
    · exact (each_append _ _ _ _).2 ⟨hchildren hinside, hnext hbehind⟩

section

variable [ParserStack]

theorem children_eq_pick {path : String} {d : Xml.Document} {file : SourceFile}
    (h : (ofDocument path d).result = .ok file) {f : Function} (hf : f ∈ file.functions) :
    ∃ p, f.children = file.blocks.pick p := by
  obtain ⟨b, -, -, rfl⟩ := assemble_eq h
  obtain ⟨i, hi, rfl⟩ := List.mem_mapIdx.1 hf
  exact ⟨_, rfl⟩

theorem points_inherited {path : String} {d : Xml.Document} {file : SourceFile}
    (h : (ofDocument path d).result = .ok file) (model : Option Model) :
    file.routes.map (·.last.taken) = file.blocks.walk ∧
    (∀ r ∈ file.routes, ∀ k ∈ r.enclosing, k.taken.isPoint model → r.last.taken.isPoint model) ∧
    (∀ r ∈ file.routes, ∀ k ∈ r.enclosing ++ [r.last], ∀ e ∈ k.earlier ++ [k.taken],
      countedIn model e.condition ≠ [] → r.last.taken.isPoint model) ∧
    (∀ r ∈ file.routes, ∃ outside points, r.path = outside ++ points ∧
      (∀ b ∈ outside, b.isPoint model = false) ∧ ∀ b ∈ points, b.isPoint model) ∧
    ∀ f ∈ file.functions,
      f.children.depths model 0 =
        ((f.children.routes [] []).filter (·.last.taken.isPoint model)).map (·.depth model) ∧
      ∀ r ∈ f.children.routes [] [],
        (∃ outside points, r.path = outside ++ points ∧ (∀ b ∈ outside, b.isPoint model = false) ∧
          (∀ b ∈ points, b.isPoint model) ∧ r.depth model = points.length) ∧
        ∀ r' ∈ f.children.routes [] [], r'.enclosing = r.enclosing ++ [r.last] →
          r.last.taken.isPoint model →
            r'.last.taken.isPoint model ∧ r'.depth model = r.depth model + 1 := by
  have hfits := fits_of_assemble h
  have hinherits : file.blocks.Each
      (fun around _ b => ∀ a ∈ around, a.isPoint model → b.isPoint model) none [] :=
    hfits.convert (by simp) fun k earlier b hb a ha hpoint => by
      obtain rfl := Option.mem_some.1 ha
      exact hb.isPoint_of_around hpoint
  have hdescends := Forest.descends_routes hinherits
  have houtside : ∀ k ∈ ([] : List Fork), ∀ e ∈ k.earlier ++ [k.taken],
      countedIn model e.condition ≠ [] → k.taken.isPoint model := by simp
  have hasked := Forest.forall_routes
    (Q := fun enclosing => ∀ k ∈ enclosing, ∀ e ∈ k.earlier ++ [k.taken],
      countedIn model e.condition ≠ [] → k.taken.isPoint model)
    (fun enclosing earlier b hq hb k hk e he hcounted => by
      rcases List.mem_append.1 hk with hk | hk
      · exact hq k hk e he hcounted
      · obtain rfl := List.mem_singleton.1 hk
        exact hb.isPoint_of_condition he hcounted)
    houtside hfits
  refine ⟨Forest.map_taken_routes [] [] file.blocks, fun r hr k hk => (hdescends r hr).last hk,
    fun r hr k hk e he hcounted => ?_, fun r hr => ?_, fun f hf => ?_⟩
  · have hpoint := (hasked r hr).2.2 k hk e he hcounted
    rcases List.mem_append.1 hk with hk | hk
    · exact (hdescends r hr).last hk hpoint
    · exact List.mem_singleton.1 hk ▸ hpoint
  · obtain ⟨outside, points, hpath, houtside, hpoints, -⟩ := (hdescends r hr).split
    exact ⟨outside, points, hpath, houtside, hpoints⟩
  · obtain ⟨p, hchildren⟩ := children_eq_pick h hf
    have hpicked := Forest.descends_routes (hchildren ▸ hinherits.pick (by simp) p)
    refine ⟨f.children.depths_eq_map_depth model, fun r hr => ⟨(hpicked r hr).split, ?_⟩⟩
    intro r' hr' hinside hpoint
    have hpoint' : r'.last.taken.isPoint model :=
      (hpicked r' hr').last (by rw [hinside]; simp) hpoint
    exact ⟨hpoint', Route.depth_inside hinside hpoint'⟩

end

/-- Only the variable of the second level counts: the blocks around the function are no variation points,
all blocks of the function are. -/
theorem points_inherited_guarded :
    let model := some (Model.ofList [⟨"B", "bool"⟩])
    ∃ file, (ofDocument "f.c.xml" guardedFunction).result = .ok file ∧
      file.blocks.walk.map (·.isPoint model) = [false, false, true, true, true, true, false] ∧
      file.functions.map (·.children.depths model 0) = [[1, 2, 1, 1]] ∧
      (∀ r ∈ file.routes, ∀ k ∈ r.enclosing, k.taken.isPoint model → r.last.taken.isPoint model) ∧
      (∀ r ∈ file.routes, ∀ k ∈ r.enclosing ++ [r.last], ∀ e ∈ k.earlier ++ [k.taken],
        countedIn model e.condition ≠ [] → r.last.taken.isPoint model) ∧
      (∀ r ∈ file.routes, ∃ outside points, r.path = outside ++ points ∧
        (∀ b ∈ outside, b.isPoint model = false) ∧ ∀ b ∈ points, b.isPoint model) ∧
      ∀ f ∈ file.functions, ∀ r ∈ f.children.routes [] [], ∀ r' ∈ f.children.routes [] [],
        r'.enclosing = r.enclosing ++ [r.last] → r.last.taken.isPoint model →
          r'.last.taken.isPoint model ∧ r'.depth model = r.depth model + 1 := by
  intro model
  have hvalues : (ofDocument "f.c.xml" guardedFunction).result.toOption.any fun file =>
      file.blocks.walk.map (·.isPoint model) = [false, false, true, true, true, true, false] ∧
        file.functions.map (·.children.depths model 0) = [[1, 2, 1, 1]] := by decide +kernel
  obtain ⟨⟨file, h⟩, -, -⟩ := guardedFunction_read
  rw [h] at hvalues
  obtain ⟨hpoints, hdepths⟩ := of_decide_eq_true hvalues
  obtain ⟨-, hinside, hbehind, hlast, hfunctions⟩ := points_inherited h model
  exact ⟨file, h, hpoints, hdepths, hinside, hbehind, hlast, fun f hf r hr =>
    ((hfunctions f hf).2 r hr).2⟩

end Variability.Code
