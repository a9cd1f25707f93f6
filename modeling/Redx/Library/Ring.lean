import Mathlib.Data.List.Nodup
import Mathlib.Logic.Function.Basic

/-!
# Rings of doubly linked nodes

A ring goes from a sentinel through the nodes of a list and back to the sentinel, and the links
backwards are those forwards, turned around. Inserting behind the sentinel and removing in front
of it make two stores each.
-/
namespace Redx.Library

variable {ι : Type*}

/-- The links lead from one node to another, through the nodes of the list. -/
inductive Path (next previous : ι → ι) : ι → List ι → ι → Prop
  | link {a b : ι} : next a = b → previous b = a → Path next previous a [] b
  | node {a b c : ι} {l : List ι} : next a = c → previous c = a → Path next previous c l b →
      Path next previous a (c :: l) b

/-- From the sentinel through the nodes of the list, and back to it. -/
structure Ring (next previous : ι → ι) (s : ι) (l : List ι) : Prop where
  path : Path next previous s l s
  nodup : (s :: l).Nodup

variable {next previous next' previous' : ι → ι} {a b e s : ι} {l : List ι}

/-- A path depends on the links from its first node on and those back from its last one. -/
theorem Path.congr (h : Path next previous a l b) (hnext : ∀ x ∈ a :: l, next' x = next x)
    (hprevious : ∀ x ∈ l ++ [b], previous' x = previous x) : Path next' previous' a l b := by
  induction h with
  | link hn hp =>
    exact .link ((hnext _ List.mem_cons_self).trans hn)
      ((hprevious _ (List.mem_append_right _ List.mem_cons_self)).trans hp)
  | node hn hp _ ih =>
    refine .node ((hnext _ List.mem_cons_self).trans hn)
      ((hprevious _ (List.mem_append_left _ List.mem_cons_self)).trans hp) (ih ?_ ?_)
    · exact fun x hx => hnext x (List.mem_cons_of_mem _ hx)
    · exact fun x hx => hprevious x (by rw [List.cons_append]; exact List.mem_cons_of_mem _ hx)

theorem path_snoc : Path next previous a (l ++ [e]) b ↔
    Path next previous a l e ∧ next e = b ∧ previous b = e := by
  induction l generalizing a with
  | nil =>
    constructor
    · rintro (_ | ⟨hn, hp, _ | _⟩)
      rename_i hb he
      exact ⟨.link hn hp, hb, he⟩
    · rintro ⟨_ | _, hb, he⟩
      rename_i hn hp
      exact .node hn hp (.link hb he)
  | cons c l ih =>
    constructor
    · intro h
      cases h with
      | node hn hp h =>
        obtain ⟨h, hb, he⟩ := ih.mp h
        exact ⟨.node hn hp h, hb, he⟩
    · rintro ⟨h, hb, he⟩
      cases h with
      | node hn hp h => exact .node hn hp (ih.mpr ⟨h, hb, he⟩)

theorem Path.next_mem {x : ι} (h : Path next previous a l b) (hx : x ∈ a :: l) :
    next x ∈ l ++ [b] := by
  induction h with
  | link hn =>
    rw [List.mem_singleton.mp hx, hn]
    exact List.mem_cons_self
  | node hn _ _ ih =>
    rcases List.mem_cons.mp hx with rfl | hx
    · rw [hn]
      exact List.mem_cons_self
    · exact List.mem_cons_of_mem _ (ih hx)

theorem Path.previous_mem {x : ι} (h : Path next previous a l b) (hx : x ∈ l ++ [b]) :
    previous x ∈ a :: l := by
  induction h with
  | link _ hp =>
    rw [List.mem_singleton.mp hx, hp]
    exact List.mem_cons_self
  | node _ hp _ ih =>
    rcases List.mem_cons.mp hx with rfl | hx
    · rw [hp]
      exact List.mem_cons_self
    · exact List.mem_cons_of_mem _ (ih hx)

namespace Ring

theorem congr (h : Ring next previous s l) (hnext : ∀ x ∈ s :: l, next' x = next x)
    (hprevious : ∀ x ∈ s :: l, previous' x = previous x) : Ring next' previous' s l := by
  refine ⟨h.path.congr hnext fun x hx => hprevious x ?_, h.nodup⟩
  rcases List.mem_append.mp hx with hx | hx
  · exact List.mem_cons_of_mem _ hx
  · rw [List.mem_singleton.mp hx]
    exact List.mem_cons_self

theorem nil_iff : Ring next previous s [] ↔ next s = s ∧ previous s = s := by
  constructor
  · rintro ⟨_ | _, -⟩
    rename_i hn hp
    exact ⟨hn, hp⟩
  · rintro ⟨hn, hp⟩
    exact ⟨.link hn hp, List.nodup_singleton s⟩

theorem next_eq_self (h : Ring next previous s l) : next s = s ↔ l = [] := by
  constructor
  · intro hs
    cases h with
    | mk hpath hnd =>
      cases hpath with
      | link => rfl
      | node hn => exact absurd (List.mem_cons_self) (hs.symm.trans hn ▸ (List.nodup_cons.mp hnd).1)
  · rintro rfl
    exact (nil_iff.mp h).1

theorem previous_eq (h : Ring next previous s (l ++ [e])) : previous s = e :=
  (path_snoc.mp h.path).2.2

theorem next_mem {x : ι} (h : Ring next previous s l) (hx : x ∈ s :: l) : next x ∈ s :: l := by
  have hn := h.path.next_mem hx
  rw [List.mem_append, List.mem_singleton] at hn
  exact List.mem_cons.mpr hn.symm

theorem previous_mem {x : ι} (h : Ring next previous s l) (hx : x ∈ s :: l) :
    previous x ∈ s :: l := by
  refine h.path.previous_mem ?_
  rw [List.mem_append, List.mem_singleton]
  exact (List.mem_cons.mp hx).symm

variable [DecidableEq ι]

/-- A node outside of the ring is inserted between the sentinel and its successor. -/
theorem insert (h : Ring next previous s l) (he : e ∉ s :: l) :
    Ring (Function.update (Function.update next e (next s)) s e)
      (Function.update (Function.update previous e s) (next s) e) s (e :: l) := by
  have hes : e ≠ s := fun hc => he (hc ▸ List.mem_cons_self)
  obtain ⟨hpath, hnd⟩ := h
  have hs : Function.update (Function.update next e (next s)) s e e = next s := by
    rw [Function.update_of_ne hes, Function.update_self]
  refine ⟨?_, ?_⟩
  · cases hpath with
    | link hn hp =>
      rw [hn] at hs ⊢
      refine .node (Function.update_self ..) ?_ (.link hs (Function.update_self ..))
      rw [Function.update_of_ne hes, Function.update_self]
    | @node _ _ c l hn hp hpath =>
      have hec : e ≠ c := fun hc => he (hc ▸ List.mem_cons_of_mem _ List.mem_cons_self)
      rw [hn] at hs ⊢
      refine .node (Function.update_self ..) ?_ (.node hs (Function.update_self ..) ?_)
      · rw [Function.update_of_ne hec, Function.update_self]
      · simp only [List.nodup_cons, List.mem_cons, not_or] at hnd he
        refine hpath.congr (fun x hx => ?_) fun x hx => ?_
        · have hxs : x ≠ s := by grind
          have hxe : x ≠ e := by grind
          rw [Function.update_of_ne hxs, Function.update_of_ne hxe]
        · have hxc : x ≠ c := by grind
          have hxe : x ≠ e := by grind
          rw [Function.update_of_ne hxc, Function.update_of_ne hxe]
  · rw [List.nodup_cons] at hnd ⊢
    rw [List.nodup_cons]
    refine ⟨?_, fun hc => he (List.mem_cons_of_mem _ hc), hnd.2⟩
    rw [List.mem_cons, not_or]
    exact ⟨Ne.symm hes, hnd.1⟩

/-- The node in front of the sentinel is taken out of the ring. -/
theorem remove (h : Ring next previous s (l ++ [e])) :
    Ring (Function.update next (previous e) s) (Function.update previous s (previous e)) s l := by
  obtain ⟨hpath, hnd⟩ := h
  obtain ⟨hpath, -, -⟩ := path_snoc.mp hpath
  refine ⟨?_, ?_⟩
  · rcases List.eq_nil_or_concat l with rfl | ⟨l, f, rfl⟩
    · cases hpath with
      | link _ hp =>
        rw [hp]
        exact .link (Function.update_self ..) (Function.update_self ..)
    · rw [List.concat_eq_append] at *
      obtain ⟨hpath, hn, hp⟩ := path_snoc.mp hpath
      simp only [List.nodup_cons, List.nodup_append, List.mem_append, List.mem_cons] at hnd
      rw [hp]
      refine path_snoc.mpr ⟨hpath.congr (fun x hx => ?_) fun x hx => ?_, Function.update_self ..,
        Function.update_self ..⟩
      · have hxf : x ≠ f := by grind
        rw [Function.update_of_ne hxf]
      · have hxs : x ≠ s := by grind
        rw [Function.update_of_ne hxs]
  · exact hnd.sublist (List.cons_sublist_cons.mpr (List.sublist_append_left _ _))

end Ring

end Redx.Library
