import Redx.Library.Run
import Redx.Allocator.Allocate
import Redx.Allocator.Free

/-!
# Live objects

Runs of the global `operator new` and `operator delete`. The state remembers which objects the
program holds. In every state that is reached these are exactly the slots whose map bits are
clear, each inside a zone of its own size, and no two of them overlap.
-/
namespace Redx.Allocator
open Library

/-- The allocator's memory and the objects, address and size, that the program holds. -/
structure Heap where
  world : World
  live : List (ℕ × ℕ)

def Heap.initial (heap : ℕ) : Heap := { world := .initial heap, live := [] }

/-- A request of a size that `size_t` holds 512 times, and the release of a live object; both
return normally. -/
inductive Step (k : Kernel) (heap : ℕ) : Heap → Call → Heap → Prop
  | new {s : Heap} {w : World} {fuel n a : ℕ} : 0 < n → n * count < 2 ^ 64 →
      operatorNew k heap fuel s.world n = some (.ok a, w) →
      Step k heap s (.new n) ⟨w, (a, n) :: s.live⟩
  | delete {s : Heap} {w : World} {fuel n a : ℕ} : (a, n) ∈ s.live →
      operatorDelete heap fuel s.world a = some (.ok (), w) →
      Step k heap s (.delete a) ⟨w, s.live.erase (a, n)⟩

/-- The range of an object. -/
def object (o : ℕ × ℕ) : Region := ⟨o.1, o.2⟩

/-- The objects that the pools have handed out: the slots whose bits are clear. -/
def Handed (used : List (ℕ × MemPool)) (o : ℕ × ℕ) : Prop :=
  ∃ x ∈ used, ∃ i < count, x.2.isFree i = false ∧ o = (x.2.slot i, x.2.size)

/-- The sizes of the pools fit `size_t` 512 times. -/
def Bounded (used : List (ℕ × MemPool)) : Prop := ∀ x ∈ used, x.2.size * count < 2 ^ 64

variable {k : Kernel} {w w' : World} {heap tail a b n : ℕ} {l₁ l₂ used : List (ℕ × MemPool)}
  {q q' : MemPool} {o : ℕ × ℕ}

theorem handed_middle : Handed (l₁ ++ (b, q) :: l₂) o ↔ Handed (l₁ ++ l₂) o ∨
    ∃ i < count, q.isFree i = false ∧ o = (q.slot i, q.size) := by
  simp only [Handed, List.mem_append, List.mem_cons, or_and_right, exists_or, exists_eq_left]
  rw [← or_assoc, or_right_comm]

theorem Bounded.middle (h : Bounded (l₁ ++ (b, q) :: l₂)) (hq : q'.size = q.size) :
    Bounded (l₁ ++ (b, q') :: l₂) := by
  intro x hx
  rcases List.mem_append.mp hx with hx | hx
  · exact h x (by simp [hx])
  · rcases List.mem_cons.mp hx with rfl | hx
    · exact hq ▸ h (b, q) (by simp)
    · exact h x (by simp [hx])

/-- A new pool has handed out nothing. -/
theorem handed_opened (hopen : ∀ i < count, q.isFree i = true) :
    Handed (used ++ [(b, q)]) o ↔ Handed used o := by
  rw [handed_middle, List.append_nil]
  refine or_iff_left ?_
  rintro ⟨i, hi, hfree, -⟩
  rw [hopen i hi] at hfree
  cases hfree

/-- Clearing the bit of a slot hands out its object. -/
theorem handed_take {i : ℕ} (hi : i < count) (hq : q' = { q with map := q'.map })
    (hbits : ∀ j, q'.isFree j = (q.isFree j && decide (j ≠ i))) :
    Handed (l₁ ++ (b, q') :: l₂) o ↔
      o = (q.slot i, q.size) ∨ Handed (l₁ ++ (b, q) :: l₂) o := by
  have hslot : ∀ j, (q'.slot j, q'.size) = (q.slot j, q.size) := by
    intro j
    rw [hq]
    rfl
  simp only [handed_middle, hbits, hslot, Bool.and_eq_false_iff, decide_eq_false_iff_not, not_not]
  constructor
  · rintro (h | ⟨j, hj, hfree | rfl, ho⟩)
    · exact .inr (.inl h)
    · exact .inr (.inr ⟨j, hj, hfree, ho⟩)
    · exact .inl ho
  · rintro (ho | h | ⟨j, hj, hfree, ho⟩)
    · exact .inr ⟨i, hi, .inr rfl, ho⟩
    · exact .inl h
    · exact .inr ⟨j, hj, .inl hfree, ho⟩

section Geometry

variable (hc : Chain w heap used tail) (hb : Bounded used)
include hc hb

theorem Chain.slot_eq {x : ℕ × MemPool} (hx : x ∈ used) {i : ℕ} (hi : i < count) :
    x.2.slot i = x.2.start + i * x.2.size := by
  have hz : x.2.zone.length = x.2.size * count := Nat.mod_eq_of_lt (hb x hx)
  have hle := (hc.zoned x hx).2.2.1
  have hlt := Nat.mul_lt_mul_of_pos_right hi (Nat.pos_of_ne_zero (hc.sized x hx))
  rw [hz, Nat.mul_comm] at hle
  exact Nat.mod_eq_of_lt (by omega)

theorem Chain.zone_covers {x : ℕ × MemPool} (hx : x ∈ used) {i : ℕ} (hi : i < count) :
    x.2.zone.Covers ⟨x.2.slot i, x.2.size⟩ := by
  rw [hc.slot_eq hb hx hi]
  have hz : x.2.zone = ⟨x.2.start, x.2.size * count⟩ := by
    rw [MemPool.zone, Nat.mod_eq_of_lt (hb x hx)]
  rw [hz]
  exact Region.covers_element hi

/-- The index that `release` computes leads back to the slot. -/
theorem Chain.slot_index {x : ℕ × MemPool} (hx : x ∈ used) {i : ℕ} (hi : i < count) :
    (x.2.slot i - x.2.start) / x.2.size = i := by
  rw [hc.slot_eq hb hx hi, Nat.add_sub_cancel_left]
  exact Nat.mul_div_cancel _ (Nat.pos_of_ne_zero (hc.sized x hx))

/-- Slots of different pools, and different slots of one pool, do not overlap. -/
theorem Chain.objects_apart {x y : ℕ × MemPool} (hx : x ∈ used) (hy : y ∈ used) {i j : ℕ}
    (hi : i < count) (hj : j < count) (h : x = y → i ≠ j) :
    (object (x.2.slot i, x.2.size)).Apart (object (y.2.slot j, y.2.size)) := by
  by_cases hxy : x = y
  · subst hxy
    rw [hc.slot_eq hb hx hi, hc.slot_eq hb hx hj]
    exact Region.apart_elements (h rfl)
  · have : Std.Symm fun x y : ℕ × MemPool => x.2.zone.Apart y.2.zone := ⟨fun _ _ h => h.symm⟩
    have hz : x.2.zone.Apart y.2.zone := hc.apart.forall hx hy hxy
    exact hz.of_covers (hc.zone_covers hb hx hi) (hc.zone_covers hb hy hj)

/-- An address and a size name at most one slot. -/
theorem Chain.slot_unique {x y : ℕ × MemPool} (hx : x ∈ used) (hy : y ∈ used) {i j : ℕ}
    (hi : i < count) (hj : j < count) (h : x.2.slot i = y.2.slot j) : x = y ∧ i = j := by
  by_contra hne
  have hpos := Nat.pos_of_ne_zero (hc.sized x hx)
  have hpos' := Nat.pos_of_ne_zero (hc.sized y hy)
  have hap := hc.objects_apart hb hx hy hi hj (fun hxy hij => hne ⟨hxy, hij⟩)
  exact hap.base_ne hpos hpos' h

end Geometry

/-- Setting the bit of a slot takes its object back. -/
theorem Chain.handed_release {i : ℕ} (hc : Chain w heap (l₁ ++ (b, q) :: l₂) tail)
    (hb : Bounded (l₁ ++ (b, q) :: l₂)) (hi : i < count) (hq : q' = { q with map := q'.map })
    (hbits : ∀ j, q'.isFree j = (q.isFree j || decide (j = i))) :
    Handed (l₁ ++ (b, q') :: l₂) o ↔
      Handed (l₁ ++ (b, q) :: l₂) o ∧ o ≠ (q.slot i, q.size) := by
  have hslot : ∀ j, (q'.slot j, q'.size) = (q.slot j, q.size) := by
    intro j
    rw [hq]
    rfl
  have hmem : (b, q) ∈ l₁ ++ (b, q) :: l₂ := by simp
  have hrest : ∀ x ∈ l₁ ++ l₂, ∀ j < count, x.2.slot j ≠ q.slot i := by
    intro x hx j hj heq
    have hx' : x ∈ l₁ ++ (b, q) :: l₂ := by
      rcases List.mem_append.mp hx with h | h <;> simp [h]
    exact hc.ne_middle hx (hc.slot_unique hb hx' hmem hj hi heq).1
  simp only [handed_middle, hbits, hslot, Bool.or_eq_false_iff, decide_eq_false_iff_not]
  constructor
  · rintro (⟨x, hx, j, hj, hfree, rfl⟩ | ⟨j, hj, ⟨hfree, hne⟩, rfl⟩)
    · refine ⟨.inl ⟨x, hx, j, hj, hfree, rfl⟩, fun h => hrest x hx j hj (Prod.mk.inj h).1⟩
    · refine ⟨.inr ⟨j, hj, hfree, rfl⟩, fun h => hne ?_⟩
      exact (hc.slot_unique hb hmem hmem hj hi (Prod.mk.inj h).1).2
  · rintro ⟨h | ⟨j, hj, hfree, rfl⟩, hne⟩
    · exact .inl h
    · exact .inr ⟨j, hj, ⟨hfree, fun h => hne (by rw [h])⟩, rfl⟩

/-- What holds between the pools and the objects that the program holds. -/
structure Sound (live : List (ℕ × ℕ)) (used : List (ℕ × MemPool)) : Prop where
  bounded : Bounded used
  handed : ∀ o, o ∈ live ↔ Handed used o
  nodup : live.Nodup

variable {live : List (ℕ × ℕ)}

theorem Sound.bits (hs : Sound live used) (hc : Chain w heap used tail)
    {x : ℕ × MemPool} (hx : x ∈ used) {i : ℕ} (hi : i < count) :
    x.2.isFree i = false ↔ ∃ n, (x.2.slot i, n) ∈ live := by
  constructor
  · intro hfree
    exact ⟨x.2.size, (hs.handed _).mpr ⟨x, hx, i, hi, hfree, rfl⟩⟩
  · rintro ⟨n, hn⟩
    obtain ⟨y, hy, j, hj, hfree, heq⟩ := (hs.handed _).mp hn
    obtain ⟨rfl, rfl⟩ := hc.slot_unique hs.bounded hx hy hi hj (Prod.mk.inj heq).1
    exact hfree

theorem Sound.apart (hs : Sound live used) (hc : Chain w heap used tail) :
    live.Pairwise fun o p => (object o).Apart (object p) := by
  refine hs.nodup.imp_of_mem ?_
  intro o p ho hp hne
  obtain ⟨x, hx, i, hi, -, rfl⟩ := (hs.handed o).mp ho
  obtain ⟨y, hy, j, hj, -, rfl⟩ := (hs.handed p).mp hp
  refine hc.objects_apart hs.bounded hx hy hi hj ?_
  rintro rfl rfl
  exact hne rfl

theorem Sound.inside (hs : Sound live used) (hc : Chain w heap used tail)
    (ho : o ∈ live) : ∃ x ∈ used, x.2.size = o.2 ∧ x.2.zone.Covers (object o) := by
  obtain ⟨x, hx, i, hi, -, rfl⟩ := (hs.handed o).mp ho
  exact ⟨x, hx, rfl, hc.zone_covers hs.bounded hx hi⟩

/-- A request that is served keeps the chain sound, with one more live object. -/
theorem Sound.new (hs : Sound live used) (hc : Chain w heap used tail)
    (hn : 0 < n) (hbound : n * count < 2 ^ 64) (h : Serves k w tail used n a w') :
    ∃ used' tail', Chain w' heap used' tail' ∧ Sound ((a, n) :: live) used' := by
  obtain ⟨l₁, b, q, q', l₂, tail', hc', rfl, hfree, rfl, hq, hbits, hold⟩ := h.takes hc hn
  have hlt := MemPool.isFree_lt hfree
  have hbefore : Bounded (l₁ ++ (b, q) :: l₂) ∧
      ∀ o, Handed (l₁ ++ (b, q) :: l₂) o ↔ Handed used o := by
    rcases hold with rfl | ⟨hold, hopen⟩
    · exact ⟨hs.bounded, fun o => Iff.rfl⟩
    · rw [hold]
      refine ⟨List.forall_mem_append.mpr ⟨hs.bounded, by simpa using hbound⟩, ?_⟩
      exact fun o => handed_opened hopen
  obtain ⟨hb, hhanded⟩ := hbefore
  refine ⟨_, _, hc', hb.middle (by rw [hq]), ?_, ?_⟩
  · intro o
    rw [handed_take hlt hq hbits, List.mem_cons, hs.handed, hhanded]
  · refine List.nodup_cons.mpr ⟨?_, hs.nodup⟩
    intro hlive
    rw [hs.handed, ← hhanded] at hlive
    obtain ⟨x, hx, i, hi, hxfree, heq⟩ := hlive
    have hback : q = { q' with map := q.map } := by rw [hq]
    have hcq := hc'.setMap hback
    obtain ⟨rfl, rfl⟩ :=
      hcq.slot_unique hb hx (y := (b, q)) (by simp) hi hlt (Prod.mk.inj heq).1.symm
    rw [hfree] at hxfree
    cases hxfree

/-- A release that returns keeps the chain sound, with the object gone. -/
theorem Sound.delete (hs : Sound live used) (hc : Chain w heap used tail)
    (hlive : (a, n) ∈ live) (h : Releases w used a (.ok (), w')) :
    ∃ used' tail', Chain w' heap used' tail' ∧
      Sound (live.erase (a, n)) used' := by
  cases h with
  | @freed l₁ l₂ b q q' hu hlo hhi hfree hq hbits =>
    subst hu
    have hmem : (b, q) ∈ l₁ ++ (b, q) :: l₂ := by simp
    obtain ⟨x, hx, i, hi, -, heq⟩ := (hs.handed _).mp hlive
    obtain ⟨rfl, rfl⟩ := Prod.mk.inj heq
    have hq_zone : q.zone.Contains (x.2.slot i) := ⟨hlo, hhi.trans_le (by
      have := q.length_le_zone
      exact Nat.add_le_add_left this q.start)⟩
    have hx_zone : x.2.zone.Contains (x.2.slot i) := by
      obtain ⟨h1, h2⟩ := hc.zone_covers hs.bounded hx hi
      have := hc.sized x hx
      exact ⟨h1, by dsimp only at h2; omega⟩
    obtain rfl := hc.zone_unique hx hmem hx_zone hq_zone
    rw [hc.slot_index hs.bounded hx hi] at hbits
    refine ⟨_, _, hc.setMap hq, hs.bounded.middle (by rw [hq]), ?_, hs.nodup.erase _⟩
    intro o
    rw [hc.handed_release hs.bounded hi hq hbits, ← hs.handed, hs.nodup.mem_erase_iff, and_comm]

theorem Sound.initial : Sound [] [] where
  bounded := by simp [Bounded]
  handed := by simp [Handed]
  nodup := .nil

/-- The pools and the objects of a state are in step with each other. -/
def Heap.Inv (heap : ℕ) (s : Heap) : Prop :=
  ∃ used tail, Chain s.world heap used tail ∧ Sound s.live used

/-- Every call keeps the chain and its agreement with the live objects. -/
theorem Heap.Inv.step {s t : Heap} {e : Call} (hs : s.Inv heap) (h : Step k heap s e t) :
    t.Inv heap := by
  obtain ⟨used, tail, hc, hs⟩ := hs
  have hlock : Chain { s.world with locked := true } heap used tail := hc.of_eq rfl rfl
  cases h with
  | @new _ fuel n a hn hbound hcall =>
    obtain ⟨-, v, hv, rfl⟩ := locked_ok hcall
    obtain ⟨used', tail', hc', hs'⟩ := hs.new hlock hn hbound (hlock.allocate_ok hv)
    exact ⟨used', tail', hc'.of_eq rfl rfl, hs'⟩
  | @delete _ fuel n a hlive hcall =>
    obtain ⟨-, v, hv, rfl⟩ := locked_ok hcall
    have ha : a < 2 ^ 64 := by
      obtain ⟨x, -, i, -, -, heq⟩ := (hs.handed _).mp hlive
      rw [(Prod.mk.inj heq).1]
      exact Nat.mod_lt _ (by decide)
    obtain ⟨used', tail', hc', hs'⟩ := hs.delete hlock hlive (hlock.free_releases ha hv)
    exact ⟨used', tail', hc'.of_eq rfl rfl, hs'⟩

/-- In every reachable state the pools form a finite chain that ends in the one pool that is not
initialised, a slot's bit is clear exactly while its address is live, live objects lie apart
from each other and inside a zone of their size, and a request finishes. -/
theorem reachable_heap_sound {s : Heap} (hheap : heap ≠ 0)
    (hr : Reachable (Step k heap) (.initial heap) s) :
    ∃ used tail, Chain s.world heap used tail ∧
      (∀ x ∈ used, ∀ i < count,
        x.2.isFree i = false ↔ ∃ n, (x.2.slot i, n) ∈ s.live) ∧
      (s.live.Pairwise fun o p => (object o).Apart (object p)) ∧
      (∀ o ∈ s.live, ∃ x ∈ used, x.2.size = o.2 ∧ x.2.zone.Covers (object o)) ∧
      ∀ n fuel, used.length < fuel → ∃ out, allocate k fuel s.world heap n = some out := by
  have hinv : s.Inv heap := hr.invariant (P := Heap.Inv heap)
    ⟨[], heap, Chain.initial hheap, Sound.initial⟩ (fun _ _ _ hs h => hs.step h)
  obtain ⟨used, tail, hc, hs⟩ := hinv
  refine ⟨used, tail, hc, fun x hx i hi => hs.bits hc hx hi, hs.apart hc,
    fun o ho => hs.inside hc ho, ?_⟩
  intro n fuel hf
  rcases hc.allocate_finishes (k := k) (n := n) hf with ⟨a, w', h, -⟩ | ⟨w', h⟩
  · exact ⟨_, h⟩
  · exact ⟨_, h⟩

/-- Two sizes, and a slot that is released and taken again. -/
theorem reachable_heap_sound_bump : ∃ s : Heap, s.live = [(4184, 24), (16560, 100)] ∧
    Reachable (Step .bump 4096) (.initial 4096) s ∧
    ∃ used tail, Chain s.world 4096 used tail ∧
      (∀ x ∈ used, ∀ i < count,
        x.2.isFree i = false ↔ ∃ n, (x.2.slot i, n) ∈ s.live) ∧
      (s.live.Pairwise fun o p => (object o).Apart (object p)) ∧
      (∀ o ∈ s.live, ∃ x ∈ used, x.2.size = o.2 ∧ x.2.zone.Covers (object o)) ∧
      ∀ n fuel, used.length < fuel →
        ∃ out, allocate .bump fuel s.world 4096 n = some out := by
  obtain ⟨w₁, w₂, w₃, w₄, h₁, h₂, h₃, h₄⟩ : ∃ w₁ w₂ w₃ w₄,
      operatorNew .bump 4096 1 (.initial 4096) 24 = some (.ok 4184, w₁) ∧
      operatorNew .bump 4096 2 w₁ 100 = some (.ok 16560, w₂) ∧
      operatorDelete 4096 1 w₂ 4184 = some (.ok (), w₃) ∧
      operatorNew .bump 4096 1 w₃ 24 = some (.ok 4184, w₄) := ⟨_, _, _, _, rfl, rfl, rfl, rfl⟩
  have hr : Reachable (Step .bump 4096) (.initial 4096) _ :=
    Reachable.next ⟨[], .start⟩ (.new (by decide) (by decide) h₁)
  have hr := hr.next (.new (by decide) (by decide) h₂)
  have hr := hr.next (.delete (List.mem_cons_of_mem _ List.mem_cons_self) h₃)
  have hr := hr.next (.new (by decide) (by decide) h₄)
  exact ⟨_, rfl, hr, reachable_heap_sound (by decide) hr⟩

end Redx.Allocator
