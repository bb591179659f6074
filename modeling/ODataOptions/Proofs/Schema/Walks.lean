import Mathlib.Data.List.Nodup
import Mathlib.Data.List.Perm.Subperm

/-!
# Walks that stop where they come back

A walk goes from a node to the next one and notes the nodes that it meets.  It stops where there is no
next node, and where the next node has the key of one that it has met.  On finitely many nodes that
their keys tell apart, every walk ends, with exactly the nodes that its first one leads to.
-/

namespace ODataOptions

/-- The node that so many steps lead to. -/
def after? {α : Type} (next? : α → Option α) : Nat → α → Option α
  | 0, node => some node
  | steps + 1, node => (next? node).bind (after? next? steps)

theorem after?_add {α : Type} {next? : α → Option α} (first second : Nat) (node : α) :
    after? next? (first + second) node = (after? next? first node).bind (after? next? second) := by
  induction first generalizing node with
  | zero => rw [Nat.zero_add, after?, Option.bind_some]
  | succ first ih =>
    rw [Nat.succ_add, after?, after?, Option.bind_assoc]
    congr 1
    funext next
    exact ih next

/-- The loop of a walk, which has met the nodes `met`, looks at the node `here?` if there is one, and
ends with the nodes `line`. -/
inductive Walk {α κ : Type} (next? : α → Option α) (key : α → κ) :
    List α → Option α → List α → Prop
  | ended {met : List α} : Walk next? key met none met
  | back {met : List α} {here : α} (hmet : key here ∈ met.map key) :
      Walk next? key met (some here) met
  | on {met line : List α} {here : α} (hfresh : key here ∉ met.map key)
      (hrest : Walk next? key (met ++ [here]) (next? here) line) : Walk next? key met (some here) line

namespace Walk

/-- Nodes that no walk leads out of, and that their keys tell apart. -/
structure Ground {α κ : Type} (next? : α → Option α) (key : α → κ) (nodes : List α) : Prop where
  closed : ∀ node ∈ nodes, ∀ next ∈ next? node, next ∈ nodes
  apart : ∀ node ∈ nodes, ∀ other ∈ nodes, key node = key other → node = other

variable {α κ : Type} {next? : α → Option α} {key : α → κ} {met line nodes : List α}
  {here? : Option α} {start other : α}

theorem unique {second : List α} (hfirst : Walk next? key met here? line)
    (hsecond : Walk next? key met here? second) : line = second := by
  induction hfirst with
  | ended =>
    cases hsecond
    rfl
  | back hmet =>
    cases hsecond with
    | back => rfl
    | on hfresh => exact absurd hmet hfresh
  | on hfresh _ ih =>
    cases hsecond with
    | back hmet => exact absurd hmet hfresh
    | on _ hrest => exact ih hrest

/-- What has been met is kept, at the front. -/
theorem met_prefix (hwalk : Walk next? key met here? line) : met <+: line := by
  induction hwalk with
  | ended | back => exact List.prefix_rfl
  | on _ _ ih => exact (List.prefix_append _ _).trans ih

/-- The first node is met. -/
theorem mem_line (hwalk : Walk next? key [] (some start) line) : start ∈ line := by
  cases hwalk with
  | back hmet => cases hmet
  | on _ hrest => exact hrest.met_prefix.subset List.mem_concat_self

theorem nodup_on {here : α} (hmet : (met.map key).Nodup) (hfresh : key here ∉ met.map key) :
    ((met ++ [here]).map key).Nodup := by
  rw [List.map_append, List.map_singleton, ← List.concat_eq_append]
  exact hmet.concat hfresh

/-- A walk meets nothing but what its steps lead to. -/
theorem exists_steps (hwalk : Walk next? key met here? line) (hmem : other ∈ line) :
    other ∈ met ∨ ∃ here ∈ here?, ∃ steps, after? next? steps here = some other := by
  induction hwalk with
  | ended | back => exact .inl hmem
  | @on met line here _ _ ih =>
    rcases ih hmem with hmet | ⟨next, hnext, steps, hsteps⟩
    · rcases List.mem_append.mp hmet with hmet | hhere
      · exact .inl hmet
      · obtain rfl := List.mem_singleton.mp hhere
        exact .inr ⟨other, rfl, 0, rfl⟩
    · refine .inr ⟨here, rfl, steps + 1, ?_⟩
      rw [after?, Option.mem_def.mp hnext, Option.bind_some, hsteps]

namespace Ground

variable (hground : Ground next? key nodes)

include hground

/-- Each step meets a node with another key, so there are no more steps than nodes. -/
theorem exists_walk (hnodup : (met.map key).Nodup) (hmet : ∀ node ∈ met, node ∈ nodes)
    (hhere : ∀ here ∈ here?, here ∈ nodes) : ∃ line, Walk next? key met here? line := by
  obtain ⟨left, hleft⟩ : ∃ left, nodes.length < met.length + left := ⟨nodes.length + 1, by omega⟩
  induction left generalizing met here? with
  | zero =>
    have hsubset : met.map key ⊆ nodes.map key := List.map_subset key hmet
    have hlength := (List.subperm_of_subset hnodup hsubset).length_le
    rw [List.length_map, List.length_map] at hlength
    omega
  | succ left ih =>
    cases here? with
    | none => exact ⟨met, .ended⟩
    | some here =>
      have hhere : here ∈ nodes := hhere here rfl
      by_cases hback : key here ∈ met.map key
      · exact ⟨met, .back hback⟩
      · have hleft' : nodes.length < (met ++ [here]).length + left := by
          rw [List.length_append, List.length_singleton]
          omega
        obtain ⟨line, hrest⟩ := ih (nodup_on hnodup hback)
          (List.forall_mem_append.mpr ⟨hmet, List.forall_mem_singleton.mpr hhere⟩)
          (hground.closed here hhere) hleft'
        exact ⟨line, .on hback hrest⟩

theorem exists_unique (hhere : ∀ here ∈ here?, here ∈ nodes) :
    ∃! line, Walk next? key [] here? line := by
  have hnodup : (([] : List α).map key).Nodup := List.nodup_nil
  obtain ⟨line, hline⟩ := hground.exists_walk hnodup (by simp) hhere
  exact ⟨line, hline, fun _ hother => hother.unique hline⟩

/-- A walk that has met, or is about to meet, the next node of each one that it has met, ends with
every next node of its line on the line. -/
theorem closed_line (hwalk : Walk next? key met here? line) (hmet : ∀ node ∈ met, node ∈ nodes)
    (hhere : ∀ here ∈ here?, here ∈ nodes)
    (hnext : ∀ node ∈ met, ∀ next ∈ next? node, next ∈ met ∨ next ∈ here?) :
    ∀ node ∈ line, ∀ next ∈ next? node, next ∈ line := by
  induction hwalk with
  | ended =>
    intro node hmem next hnode
    exact (hnext node hmem next hnode).resolve_right (Option.not_mem_none next)
  | @back met here hback =>
    intro node hmem next hnode
    rcases hnext node hmem next hnode with hold | hhere'
    · exact hold
    · cases hhere'
      obtain ⟨seen, hseen, hkey⟩ := List.mem_map.mp hback
      rw [← hground.apart seen (hmet seen hseen) here (hhere here rfl) hkey]
      exact hseen
  | @on met line here _ _ ih =>
    have hhere : here ∈ nodes := hhere here rfl
    apply ih (List.forall_mem_append.mpr ⟨hmet, List.forall_mem_singleton.mpr hhere⟩)
      (hground.closed here hhere)
    intro node hmem next hnode
    rcases List.mem_append.mp hmem with hold | hnew
    · rcases hnext node hold next hnode with hold | hhere'
      · exact .inl (List.mem_append_left _ hold)
      · cases hhere'
        exact .inl List.mem_concat_self
    · obtain rfl := List.mem_singleton.mp hnew
      exact .inr hnode

/-- A walk ends with exactly the nodes that its first one leads to. -/
theorem mem_line_iff (hstart : start ∈ nodes) (hwalk : Walk next? key [] (some start) line) :
    other ∈ line ↔ ∃ steps, after? next? steps start = some other := by
  constructor
  · intro hmem
    rcases hwalk.exists_steps hmem with hmet | ⟨_, ⟨⟩, hsteps⟩
    · cases hmet
    · exact hsteps
  · rintro ⟨steps, hsteps⟩
    have hline := hground.closed_line hwalk (by simp) (by simpa using hstart) (by simp)
    have hmem : start ∈ line := hwalk.mem_line
    clear hstart hwalk
    induction steps generalizing start with
    | zero =>
      cases hsteps
      exact hmem
    | succ steps ih =>
      obtain ⟨next, hnext, hrest⟩ := Option.bind_eq_some_iff.mp hsteps
      exact ih hrest (hline start hmem next hnext)

end Ground

end Walk

end ODataOptions
