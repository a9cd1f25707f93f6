import Mathlib.Data.List.Nodup
import Mathlib.Logic.Function.Basic

/-!
# Linked lists in a memory of nodes

A memory maps addresses to nodes and every node names the address of its successor. `Linked`
relates an address to the nodes met on the way to an end address. A path is determined by its
two ends, so no node occurs on it twice and a store outside of it leaves it alone.
-/
namespace Redx.Library

variable {ι ν : Type*}

/-- From address `a` the links lead through the nodes of the list to address `z`. -/
inductive Linked (mem : ι → Option ν) (link : ν → ι) (z : ι) : ι → List (ι × ν) → Prop
  | done : Linked mem link z z []
  | node {a : ι} {v : ν} {l : List (ι × ν)} : a ≠ z → mem a = some v →
      Linked mem link z (link v) l → Linked mem link z a ((a, v) :: l)

variable {mem : ι → Option ν} {link : ν → ι} {z a : ι} {l : List (ι × ν)}

theorem Linked.mem_eq (h : Linked mem link z a l) {x : ι × ν} (hx : x ∈ l) :
    mem x.1 = some x.2 := by
  induction h with
  | done => simp at hx
  | node _ hv _ ih =>
    rcases List.mem_cons.mp hx with rfl | hx
    · exact hv
    · exact ih hx

theorem Linked.ne_end (h : Linked mem link z a l) {x : ι × ν} (hx : x ∈ l) : x.1 ≠ z := by
  induction h with
  | done => simp at hx
  | node hz _ _ ih =>
    rcases List.mem_cons.mp hx with rfl | hx
    · exact hz
    · exact ih hx

/-- Two paths from one address, neither of which passes the end of the other, are the same. -/
theorem Linked.end_unique {z' : ι} {l' : List (ι × ν)} (h : Linked mem link z a l)
    (h' : Linked mem link z' a l') (hz : ∀ x ∈ l', x.1 ≠ z) (hz' : ∀ x ∈ l, x.1 ≠ z') :
    l = l' ∧ z = z' := by
  induction h generalizing l' with
  | done =>
    cases h' with
    | done => exact ⟨rfl, rfl⟩
    | node => exact absurd rfl (hz _ List.mem_cons_self)
  | node _ hv _ ih =>
    cases h' with
    | done => exact absurd rfl (hz' _ List.mem_cons_self)
    | node _ hv' hl' =>
      obtain rfl : _ = _ := Option.some.inj (hv.symm.trans hv')
      obtain ⟨rfl, rfl⟩ := ih hl' (fun x hx => hz x (List.mem_cons_of_mem _ hx))
        (fun x hx => hz' x (List.mem_cons_of_mem _ hx))
      exact ⟨rfl, rfl⟩

/-- The two ends determine the path. -/
theorem Linked.unique (h : Linked mem link z a l) {l' : List (ι × ν)}
    (h' : Linked mem link z a l') : l = l' :=
  (h.end_unique h' (fun _ => h'.ne_end) (fun _ => h.ne_end)).1

/-- From every node on the path the rest of the path leads to the end. -/
theorem Linked.suffix (h : Linked mem link z a l) {x : ι × ν} (hx : x ∈ l) :
    ∃ l', Linked mem link z x.1 (x :: l') ∧ l'.length < l.length := by
  induction h with
  | done => simp at hx
  | @node a v l hz hv hl ih =>
    rcases List.mem_cons.mp hx with rfl | hx
    · exact ⟨l, .node hz hv hl, by simp⟩
    · obtain ⟨l', hl', hlen⟩ := ih hx
      exact ⟨l', hl', by simp only [List.length_cons]; omega⟩

theorem Linked.nodup (h : Linked mem link z a l) : (l.map Prod.fst).Nodup := by
  induction h with
  | done => simp
  | @node a v l hz hv hl ih =>
    rw [List.map_cons, List.nodup_cons]
    refine ⟨?_, ih⟩
    intro ha
    obtain ⟨x, hx, rfl⟩ := List.mem_map.mp ha
    -- a second visit would start a shorter path between the same two addresses
    obtain ⟨l', hl', hlen⟩ := hl.suffix hx
    have he := (Linked.node hz hv hl).unique hl'
    have := congrArg List.length he
    simp only [List.length_cons] at this
    omega

/-- A path only depends on the nodes it visits. -/
theorem Linked.congr (h : Linked mem link z a l) {mem' : ι → Option ν}
    (hm : ∀ x ∈ l, mem' x.1 = mem x.1) : Linked mem' link z a l := by
  induction h with
  | done => exact .done
  | node hz hv _ ih =>
    exact .node hz ((hm _ List.mem_cons_self).trans hv)
      (ih fun x hx => hm x (List.mem_cons_of_mem _ hx))

theorem Linked.append {m : ι} {l' : List (ι × ν)} (h : Linked mem link m a l)
    (hz : ∀ x ∈ l, x.1 ≠ z) (h' : Linked mem link z m l') : Linked mem link z a (l ++ l') := by
  induction h with
  | done => exact h'
  | node _ hv _ ih =>
    exact .node (hz _ List.mem_cons_self) hv (ih fun x hx => hz x (List.mem_cons_of_mem _ hx))

variable [DecidableEq ι]

/-- Overwriting one node of the path by a node with the same link. -/
theorem Linked.replace {l₁ l₂ : List (ι × ν)} {b : ι} {v v' : ν}
    (h : Linked mem link z a (l₁ ++ (b, v) :: l₂)) (hv : link v' = link v) :
    Linked (Function.update mem b (some v')) link z a (l₁ ++ (b, v') :: l₂) := by
  have hnd := h.nodup
  induction l₁ generalizing a with
  | nil =>
    cases h with
    | node hz _ hl =>
      rw [List.nil_append, List.map_cons, List.nodup_cons] at hnd
      refine .node hz (Function.update_self ..) (hv ▸ hl.congr ?_)
      intro x hx
      refine Function.update_of_ne ?_ ..
      intro he
      exact hnd.1 (List.mem_map.mpr ⟨x, hx, he⟩)
  | cons y l₁ ih =>
    cases h with
    | node hz hw hl =>
      rw [List.cons_append, List.map_cons, List.nodup_cons] at hnd
      refine .node hz ?_ (ih hl hnd.2)
      refine (Function.update_of_ne ?_ ..).trans hw
      rintro rfl
      exact hnd.1 (by simp)

end Redx.Library
