import Redx.Library.Files
import Mathlib.Algebra.GroupWithZero.Nat

/-!
# Removing a directory tree

`recursive_remove` unlinks what is not a directory and calls itself for what is. It decides by
`stat`, which follows links, and finds the entries of a directory with a pattern.
-/
namespace Redx.Files
open Library Library.Files Library.Files.Tree

/-- `strlen` of a path. -/
def strlen (path : Path) : ℕ := (path.map List.length).sum + (path.length - 1)

/-- `sizeof pattern` -/
def patternSize : ℕ := 256

/-- Why a call does not return: it calls itself too often for the fuel, or `sprintf` writes past
the end of the pattern. -/
inductive Stop where
  | fuel
  | overflow
  deriving DecidableEq, Repr

/-- The loop over the paths that `glob` found. -/
def removeAll (cwd : Location) (remove : FileSystem → Path → Except Stop FileSystem) :
    List Path → FileSystem → Except Stop FileSystem
  | [], fs => .ok fs
  | path :: paths, fs =>
    match fs.stat cwd path with
    | none => removeAll cwd remove paths fs
    | some .directory =>
      match remove fs path with
      | .error e => .error e
      | .ok fs => removeAll cwd remove paths fs
    | some _ => removeAll cwd remove paths (fs.unlink cwd path)

/-- `recursive_remove`, with one unit of fuel for each call inside another. -/
def recursiveRemove (fnmatch : Name → Name → Bool) (cwd : Location) :
    ℕ → FileSystem → Path → Except Stop FileSystem
  | 0, _, _ => .error .fuel
  | fuel + 1, fs, path =>
    if path = [] ∨ path = [[]] then .ok fs
    else
      match fs.stat cwd path with
      | none => .ok fs
      | some .directory =>
        if patternSize < strlen path + 3 then .error .overflow
        else
          match removeAll cwd (recursiveRemove fnmatch cwd fuel) (fs.glob fnmatch cwd path) fs with
          | .error e => .error e
          | .ok fs => .ok (fs.rmdir cwd path)
      | some _ => .ok (fs.unlink cwd path)

/-- The places below one. -/
def below (l : Location) : Set Location := {m | l <+: m ∧ m ≠ l}

/-- The places at and below entries of a directory. -/
def trees (l : Location) (names : List Name) : Set Location := {m | ∃ n ∈ names, l ++ [n] <+: m}

/-- The call returns, everything outside of the directory is still there, and the directory is
gone. -/
def Removes (fnmatch : Name → Name → Bool) (cwd : Location) (fs : FileSystem) (path : Path)
    (l : Location) : Prop :=
  ∃ fuel fs', recursiveRemove fnmatch cwd fuel fs path = .ok fs' ∧
    (∀ m ∉ under l, fs'.node m = fs.node m) ∧ fs'.node l = none

/-- The pattern of a directory fits the buffer and matches just its entries; each link in it leads
to something else than a directory when the entries before the link are gone; and so on in the
directories in it. -/
inductive Clearable (fnmatch : Name → Name → Bool) (cwd : Location) : Tree → Location → Path → Prop
  | intro {t : Tree} {l : Location} {path : Path} : strlen path + 3 ≤ patternSize →
      t.glob fnmatch cwd path = (t.children l).map (fun n => path ++ [n]) →
      (∀ before n after target, t.children l = before ++ n :: after →
        t.node (l ++ [n]) = some (.link target) →
        ∃ k, (t.without (trees l before)).stat cwd (path ++ [n]) = some k ∧ k ≠ .directory) →
      (∀ before n after, t.children l = before ++ n :: after →
        t.node (l ++ [n]) = some .directory →
        Clearable fnmatch cwd (t.without (trees l before)) (l ++ [n]) (path ++ [n])) →
      Clearable fnmatch cwd t l path

/-- The path leads to a directory and names its entry, and does not go through the directory. -/
structure Named (t : Tree) (cwd : Location) (links : ℕ) (l : Location) (path : Path) : Prop where
  ne_nil : path ≠ []
  ne_empty : path ≠ [[]]
  follows : (t.without (below l)).Follows maxLinks (start cwd path) path links l
  located : (t.without (below l)).locate cwd path = some l

variable {fnmatch : Name → Name → Bool} {cwd l m : Location} {fs s s' u : FileSystem} {t v : Tree}
  {path q : Path} {n : Name} {k : Kind} {links fuel : ℕ} {names : List Name}
  {remove : FileSystem → Path → Except Stop FileSystem}

theorem strlen_append_singleton (hq : q ≠ []) : strlen (q ++ [n]) = strlen q + 1 + n.length := by
  have hpos := List.length_pos_iff.mpr hq
  simp only [strlen, List.map_append, List.sum_append, List.length_append, List.map_singleton,
    List.sum_singleton, List.length_singleton]
  omega

theorem append_singleton_ne (hq : q ≠ []) : q ++ [n] ≠ [] ∧ q ++ [n] ≠ [[]] := by
  refine ⟨by simp, fun h => hq ?_⟩
  simpa using congrArg List.length h

theorem mem_trees_append :
    m ∈ trees l (names ++ [n]) ↔ m ∈ trees l names ∨ m ∈ under (l ++ [n]) := by
  constructor
  · rintro ⟨n', hn', h⟩
    rcases List.mem_append.mp hn' with hn' | hn'
    · exact .inl ⟨n', hn', h⟩
    · obtain rfl := List.mem_singleton.mp hn'
      exact .inr h
  · rintro (⟨n', hn', h⟩ | h)
    · exact ⟨n', List.mem_append_left _ hn', h⟩
    · exact ⟨n, List.mem_append_right _ List.mem_cons_self, h⟩

theorem append_singleton_notMem_trees (hn : n ∉ names) : l ++ [n] ∉ trees l names := by
  rintro ⟨n', hn', hpre⟩
  have heq := (List.prefix_append_right_inj l).mp hpre
  obtain rfl : n' = n := by simpa using heq
  exact hn hn'

theorem trees_subset (h : m ∈ trees l names) : m ∈ below l := by
  obtain ⟨n, -, r, rfl⟩ := h
  refine ⟨by simp, fun h => ?_⟩
  rw [List.append_assoc] at h
  simp at h

theorem below_of_child (h : m ∈ below (l ++ [n])) : m ∈ below l := by
  obtain ⟨⟨r, rfl⟩, -⟩ := h
  refine ⟨by simp, fun h => ?_⟩
  rw [List.append_assoc] at h
  simp at h

section Entries

variable (hfollows : u.Follows maxLinks (start cwd q) q links l)
  (hne : q ≠ []) (hempty : q ≠ [[]])
include hfollows hne hempty

theorem stat_of_follows (hl : u.node l = some .directory) {b : ℕ}
    (h : u.Follows links l [n] b m) (hk : u.node m = some k) :
    u.stat cwd (q ++ [n]) = some k := by
  obtain ⟨hne', hempty'⟩ := append_singleton_ne (n := n) hne
  refine (stat_eq_some hne' hempty').mpr ⟨b, m, ?_, hk⟩
  rw [start_append hne hempty]
  exact hfollows.append (by rw [hl]; decide) h

theorem stat_entry (hk : u.node (l ++ [n]) = some k) (hlink : ∀ target, k ≠ .link target) :
    u.stat cwd (q ++ [n]) = some k := by
  have hpresent : u.node (l ++ [n]) ≠ none := by
    rw [hk]
    exact Option.some_ne_none _
  have hn := u.ordinary l n hpresent
  have hl := u.parent l n hpresent
  cases k with
  | file => exact stat_of_follows hfollows hne hempty hl (.file hn hk) hk
  | directory => exact stat_of_follows hfollows hne hempty hl (.directory hn hk .done) hk
  | link target => exact absurd rfl (hlink target)

/-- An entry that is not a directory is unlinked. -/
theorem unlink_entry (hk : u.node (l ++ [n]) = some k) (hdir : k ≠ .directory) :
    (u.unlink cwd (q ++ [n])).toTree = u.without (under (l ++ [n])) := by
  have hpresent : u.node (l ++ [n]) ≠ none := by
    rw [hk]
    exact Option.some_ne_none _
  have hlocate : u.locate cwd (q ++ [n]) = some (l ++ [n]) :=
    (locate_append_singleton hne hempty (u.ordinary l n hpresent)).mpr ⟨links, l, hfollows, rfl⟩
  have hdir' : u.node (l ++ [n]) ≠ some .directory := by
    rw [hk]
    exact fun h => hdir (Option.some.inj h)
  rw [FileSystem.unlink, hlocate]
  dsimp only
  rw [if_neg hdir', FileSystem.erase_eq (by simp) (FileSystem.no_children hdir')]

end Entries

/-- The states of the loop: the entries already met are gone. -/
theorem without_trees_append : (t.without (trees l names)).without (under (l ++ [n])) =
    t.without (trees l (names ++ [n])) := by
  rw [without_without]
  exact without_congr fun m _ => mem_trees_append.symm

theorem without_trees_nil : t.without (trees l []) = t := by
  refine Tree.ext (funext fun m => without_node_of_notMem ?_) rfl
  rintro ⟨n, hn, -⟩
  cases hn

theorem children_without_trees : (t.without (trees l (t.children l))).children l = [] := by
  refine List.filter_eq_nil_iff.mpr fun n hn hnode => ?_
  by_cases hmem : n ∈ t.children l
  · have hgone : l ++ [n] ∈ trees l (t.children l) := ⟨n, hmem, List.prefix_refl _⟩
    rw [without_node_of_mem hgone] at hnode
    cases hnode
  · rw [without_node_of_notMem (append_singleton_notMem_trees hmem)] at hnode
    exact hmem (List.mem_filter.mpr ⟨hn, hnode⟩)

/-- A directory that is empty is removed. -/
theorem rmdir_entry (hlocate : u.locate cwd q = some l) (hl : l ≠ [])
    (hdir : u.node l = some .directory) (h : u.children l = []) :
    (u.rmdir cwd q).toTree = u.without (under l) := by
  rw [FileSystem.rmdir, hlocate]
  dsimp only
  rw [if_pos hdir, FileSystem.erase_eq hl h]

namespace Named

variable (h : Named t cwd links l q)
include h

theorem of_sub (hsub : (t.without (below l)).Sub v) :
    v.Follows maxLinks (start cwd q) q links l ∧ v.locate cwd q = some l :=
  ⟨h.follows.mono hsub, locate_mono h.located hsub⟩

/-- A directory in the directory is named too, whatever is gone in the directory. -/
theorem child (hsub : (t.without (below l)).Sub v) (hl : v.node l = some .directory)
    (hn : Ordinary n) (hdir : v.node (l ++ [n]) = some .directory) :
    Named v cwd links (l ++ [n]) (q ++ [n]) := by
  have hsub' : (t.without (below l)).Sub (v.without (below (l ++ [n]))) := by
    intro m k hm
    have hnot := (without_node_eq_some.mp hm).1
    exact without_node_eq_some.mpr ⟨fun hmem => hnot (below_of_child hmem), hsub m k hm⟩
  obtain ⟨hfollows, -⟩ := h.of_sub hsub'
  have hself : (v.without (below (l ++ [n]))).node (l ++ [n]) = some .directory :=
    without_node_eq_some.mpr ⟨fun hmem => hmem.2 rfl, hdir⟩
  have hfile : (v.without (below (l ++ [n]))).node l ≠ some .file := by
    intro hfile
    have := without_sub _ _ _ _ hfile
    rw [hl] at this
    cases this
  refine ⟨(append_singleton_ne h.ne_nil).1, (append_singleton_ne h.ne_nil).2, ?_, ?_⟩
  · rw [start_append h.ne_nil h.ne_empty]
    exact hfollows.append hfile (.directory hn hself .done)
  · exact (locate_append_singleton h.ne_nil h.ne_empty hn).mpr ⟨links, l, hfollows, rfl⟩

end Named

/-- An entry is as it was as long as only those before it are gone. -/
theorem entry_of_eq_without {before after : List Name}
    (hsplit : s.children l = before ++ n :: after) (hu : u.toTree = s.without (trees l before)) :
    u.node (l ++ [n]) = s.node (l ++ [n]) ∧ s.node (l ++ [n]) ≠ none ∧ Ordinary n := by
  have hnodup := s.children_nodup (l := l)
  rw [hsplit] at hnodup
  have hnotMem : n ∉ before :=
    fun hmem => (List.nodup_append.mp hnodup).2.2 n hmem n List.mem_cons_self rfl
  have hpresent : s.node (l ++ [n]) ≠ none := FileSystem.mem_children.mp (by rw [hsplit]; simp)
  refine ⟨?_, hpresent, s.ordinary l n hpresent⟩
  rw [hu, without_node_of_notMem (append_singleton_notMem_trees hnotMem)]

/-- While entries of the directory go, it is still there and its path leads to it. -/
theorem sub_of_eq_without (hs : u.toTree = t.without (trees l names)) :
    (t.without (below l)).Sub u.toTree := by
  intro m k hm
  obtain ⟨hnot, hm⟩ := without_node_eq_some.mp hm
  rw [hs]
  exact without_node_eq_some.mpr ⟨fun hmem => hnot (trees_subset hmem), hm⟩

/-- Once its entries are gone the directory can be removed. -/
theorem rmdir_cleared (hnamed : Named s.toTree cwd links l q) (hl : l ≠ [])
    (hdir : s.node l = some .directory) (hu : u.toTree = s.without (trees l (s.children l))) :
    (u.rmdir cwd q).toTree = s.without (under l) := by
  have hsub := sub_of_eq_without hu
  have hldir : u.node l = some .directory := by
    refine hsub l _ ?_
    rw [without_node_of_notMem fun h => h.2 rfl, hdir]
  rw [rmdir_entry (hnamed.of_sub hsub).2 hl hldir (by rw [hu, children_without_trees]), hu,
    without_without]
  refine without_congr fun m _ => ⟨fun h => h.elim (fun h => (trees_subset h).1) id, .inr⟩

theorem removeAll_unlink {paths : List Path} (hk : s.stat cwd q = some k) (hdir : k ≠ .directory) :
    removeAll cwd remove (q :: paths) s = removeAll cwd remove paths (s.unlink cwd q) := by
  rw [removeAll, hk]
  cases k with
  | directory => exact absurd rfl hdir
  | file => rfl
  | link target => rfl

/-- The loop over the entries of a directory removes them, when the calls remove the directories
among them and each link leads to something else than a directory. -/
theorem removeAll_clears (hnamed : Named s.toTree cwd links l q)
    (hlinks : ∀ before n after target, s.children l = before ++ n :: after →
      s.node (l ++ [n]) = some (.link target) →
      ∃ k, (s.without (trees l before)).stat cwd (q ++ [n]) = some k ∧ k ≠ .directory)
    (hcalls : ∀ before n after (u : FileSystem), s.children l = before ++ n :: after →
      u.toTree = s.without (trees l before) → u.node (l ++ [n]) = some .directory →
      ∃ v, remove u (q ++ [n]) = .ok v ∧ v.toTree = u.without (under (l ++ [n])))
    {after before : List Name} (hsplit : s.children l = before ++ after)
    (hu : u.toTree = s.without (trees l before)) :
    ∃ u', removeAll cwd remove (after.map fun n => q ++ [n]) u = .ok u' ∧
      u'.toTree = s.without (trees l (s.children l)) := by
  induction after generalizing before u with
  | nil =>
    rw [List.append_nil] at hsplit
    exact ⟨u, rfl, hsplit ▸ hu⟩
  | cons n after ih =>
    obtain ⟨hfollows, -⟩ := hnamed.of_sub (sub_of_eq_without hu)
    obtain ⟨hnode, hpresent, -⟩ := entry_of_eq_without hsplit hu
    -- what is left of the loop once the entry is gone
    have hnext : ∀ v : FileSystem, v.toTree = u.without (under (l ++ [n])) →
        ∃ u', removeAll cwd remove (after.map fun n => q ++ [n]) v = .ok u' ∧
          u'.toTree = s.without (trees l (s.children l)) := by
      intro v hv
      refine ih (hsplit.trans (List.append_cons before n after)) ?_
      rw [hv, hu, without_trees_append]
    rw [List.map_cons]
    cases hk : s.node (l ++ [n]) with
    | none => exact absurd hk hpresent
    | some k =>
      rw [hk] at hnode
      cases k with
      | file =>
        have hstat := stat_entry hfollows hnamed.ne_nil hnamed.ne_empty hnode nofun
        rw [removeAll_unlink hstat nofun]
        exact hnext _ (unlink_entry hfollows hnamed.ne_nil hnamed.ne_empty hnode nofun)
      | link target =>
        obtain ⟨k, hstat, hne⟩ := hlinks before n after target hsplit hk
        rw [← hu] at hstat
        rw [removeAll_unlink hstat hne]
        exact hnext _ (unlink_entry hfollows hnamed.ne_nil hnamed.ne_empty hnode nofun)
      | directory =>
        obtain ⟨v, hv, hvtree⟩ := hcalls before n after u hsplit hu hnode
        rw [removeAll, stat_entry hfollows hnamed.ne_nil hnamed.ne_empty hnode nofun]
        dsimp only
        rw [hv]
        exact hnext v hvtree

/-- A directory that can be cleared is removed, and nothing else. -/
theorem Clearable.removes (hc : Clearable fnmatch cwd t l q) : ∀ {fuel links : ℕ} {s : FileSystem},
    s.toTree = t → Named t cwd links l q → t.node l = some .directory → l ≠ [] →
    254 ≤ fuel + strlen q →
    ∃ s', recursiveRemove fnmatch cwd fuel s q = .ok s' ∧ s'.toTree = t.without (under l) := by
  induction hc with
  | @intro t l q hlength hglob hlinks _ ih =>
    intro fuel links s hs hnamed hdir hroot hfuel
    subst hs
    have hsize : patternSize = 256 := rfl
    obtain ⟨fuel, rfl⟩ : ∃ f, fuel = f + 1 := ⟨fuel - 1, by omega⟩
    -- the paths get longer, up to the size of the pattern
    have hcalls : ∀ before n after (u : FileSystem), s.children l = before ++ n :: after →
        u.toTree = s.without (trees l before) → u.node (l ++ [n]) = some .directory →
        ∃ v, recursiveRemove fnmatch cwd fuel u (q ++ [n]) = .ok v ∧
          v.toTree = u.without (under (l ++ [n])) := by
      intro before n after u hsplit hu hentry
      obtain ⟨hnode, hpresent, hordinary⟩ := entry_of_eq_without hsplit hu
      have hlen : strlen (q ++ [n]) = strlen q + 1 + n.length :=
        strlen_append_singleton hnamed.ne_nil
      have hfuel' : 254 ≤ fuel + strlen (q ++ [n]) := by omega
      have hl : u.node l = some .directory := u.parent l n (by rw [hentry]; simp)
      have hchild := hnamed.child (sub_of_eq_without hu) hl hordinary hentry
      rw [hu] at hentry hchild ⊢
      exact ih before n after hsplit (hnode.symm.trans (hu ▸ hentry)) hu hchild hentry (by simp)
        hfuel'
    have hstat : s.stat cwd q = some .directory :=
      (stat_eq_some hnamed.ne_nil hnamed.ne_empty).mpr
        ⟨links, l, (hnamed.of_sub (without_sub _ _)).1, hdir⟩
    obtain ⟨u, hu, hutree⟩ := removeAll_clears hnamed hlinks hcalls
      (List.nil_append (s.children l)).symm without_trees_nil.symm
    refine ⟨_, ?_, rmdir_cleared hnamed hroot hdir hutree⟩
    rw [recursiveRemove, if_neg (not_or.mpr ⟨hnamed.ne_nil, hnamed.ne_empty⟩), hstat]
    dsimp only
    rw [if_neg (by omega), hglob, hu]

/-- What a call that returns has done. -/
theorem recursiveRemove_cases (h : recursiveRemove fnmatch cwd fuel s q = .ok s') :
    (s.stat cwd q = none ∧ s' = s) ∨
    (∃ k, s.stat cwd q = some k ∧ k ≠ .directory ∧ s' = s.unlink cwd q) ∨
    ∃ f u, fuel = f + 1 ∧ s.stat cwd q = some .directory ∧ strlen q + 3 ≤ patternSize ∧
      removeAll cwd (recursiveRemove fnmatch cwd f) (s.glob fnmatch cwd q) s = .ok u ∧
      s' = u.rmdir cwd q := by
  cases fuel with
  | zero => cases h
  | succ f =>
    rw [recursiveRemove] at h
    split at h
    · rename_i hq
      exact .inl ⟨by rw [stat, if_pos hq], (Except.ok.inj h).symm⟩
    · split at h
      · rename_i hstat
        exact .inl ⟨hstat, (Except.ok.inj h).symm⟩
      · rename_i hstat
        split at h
        · cases h
        · rename_i hlength
          split at h
          · cases h
          · rename_i u hu
            exact .inr (.inr ⟨f, u, rfl, hstat, by omega, hu, (Except.ok.inj h).symm⟩)
      · rename_i k hdir hstat
        exact .inr (.inl ⟨k, hstat, hdir, (Except.ok.inj h).symm⟩)

/-- What the loop does with the first path. -/
theorem removeAll_cases {paths : List Path} (h : removeAll cwd remove (q :: paths) s = .ok s') :
    ∃ u, removeAll cwd remove paths u = .ok s' ∧
      ((s.stat cwd q = none ∧ u = s) ∨
        (∃ k, s.stat cwd q = some k ∧ k ≠ .directory ∧ u = s.unlink cwd q) ∨
        s.stat cwd q = some .directory ∧ remove s q = .ok u) := by
  rw [removeAll] at h
  split at h
  · rename_i hstat
    exact ⟨s, h, .inl ⟨hstat, rfl⟩⟩
  · rename_i hstat
    split at h
    · cases h
    · rename_i u hu
      exact ⟨u, h, .inr (.inr ⟨hstat, hu⟩)⟩
  · rename_i k hdir hstat
    exact ⟨_, h, .inr (.inl ⟨k, hstat, hdir, rfl⟩)⟩

section Invariant

variable {I : FileSystem → Prop} {V : Path → Prop}
  (hunlink : ∀ s q k, I s → V q → s.stat cwd q = some k → k ≠ .directory → I (s.unlink cwd q))
include hunlink

theorem removeAll_invariant (hremove : ∀ s q s', remove s q = .ok s' → V q → I s → I s')
    {paths : List Path} (h : removeAll cwd remove paths s = .ok s') (hv : ∀ q ∈ paths, V q)
    (hs : I s) : I s' := by
  induction paths generalizing s with
  | nil => exact Except.ok.inj h ▸ hs
  | cons q paths ih =>
    obtain ⟨hq, hv⟩ := List.forall_mem_cons.mp hv
    obtain ⟨u, hu, ⟨-, rfl⟩ | ⟨k, hstat, hdir, rfl⟩ | ⟨-, hcall⟩⟩ := removeAll_cases h
    · exact ih hu hv hs
    · exact ih hu hv (hunlink s q k hs hq hstat hdir)
    · exact ih hu hv (hremove s q u hcall hq hs)

/-- What unlinking and removing directories keep on the paths that are met, all calls keep. -/
theorem recursiveRemove_invariant
    (hglob : ∀ s q, I s → V q → s.stat cwd q = some .directory →
      ∀ q' ∈ s.glob fnmatch cwd q, V q')
    (hrmdir : ∀ s q, I s → V q → I (s.rmdir cwd q))
    (h : recursiveRemove fnmatch cwd fuel s q = .ok s') (hv : V q) (hs : I s) : I s' := by
  induction fuel generalizing s s' q with
  | zero => cases h
  | succ fuel ih =>
    obtain ⟨-, rfl⟩ | ⟨k, hstat, hdir, rfl⟩ | ⟨f, u, hf, hstat, -, hu, rfl⟩ :=
      recursiveRemove_cases h
    · exact hs
    · exact hunlink s q k hs hv hstat hdir
    · obtain rfl := Nat.succ.inj hf
      exact hrmdir u q (removeAll_invariant hunlink (fun s q s' h => ih h) hu
        (hglob s q hs hv hstat) hs) hv

end Invariant

/-- The calls add nothing. -/
theorem recursiveRemove_sub (h : recursiveRemove fnmatch cwd fuel s q = .ok s') :
    s'.Sub s.toTree :=
  recursiveRemove_invariant (V := fun _ => True) (I := fun u => u.Sub s.toTree)
    (fun _ _ _ hu _ _ _ => FileSystem.unlink_sub.trans hu) (fun _ _ _ _ _ _ _ => trivial)
    (fun _ _ hu _ => FileSystem.rmdir_sub.trans hu) h trivial fun _ _ h => h

theorem removeAll_sub {paths : List Path}
    (h : removeAll cwd (recursiveRemove fnmatch cwd fuel) paths s = .ok s') : s'.Sub s.toTree :=
  removeAll_invariant (V := fun _ => True) (I := fun u => u.Sub s.toTree)
    (fun _ _ _ hu _ _ _ => FileSystem.unlink_sub.trans hu)
    (fun _ _ _ hcall _ hu => (recursiveRemove_sub hcall).trans hu) h (fun _ _ => trivial)
    fun _ _ h => h

end Redx.Files
