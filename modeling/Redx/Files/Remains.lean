import Redx.Files.Remove

/-!
# What stays of a directory tree

An entry that the calls cannot remove keeps every directory above it. Such are an entry whose name
begins with a period and a link that leads nowhere or to a directory.
-/
namespace Redx.Files
open Library Library.Files Library.Files.Tree

/-- No part of the path, and no name of a directory or a link below it, has a character that means
something in a pattern. -/
structure NoPatterns (t : Tree) (root : Location) (path : Path) : Prop where
  parts : ∀ c ∈ path, Plain c
  entries : ∀ l n k, root <+: l → t.node (l ++ [n]) = some k → k ≠ .file → Plain n

/-- An entry that no call removes. -/
structure Stuck (t : Tree) (links : ℕ) (l : Location) (n : Name) : Prop where
  present : t.node (l ++ [n]) ≠ none
  link : visible n = true → t.node (l ++ [n]) ≠ some .directory
  target : visible n = true → ∀ b ≤ links, ∀ b' m k, t.Follows b l [n] b' m →
    t.node m = some k → k = .directory

/-- The paths that the calls meet: behind the first path, names that `*` matches. -/
inductive Visits (path : Path) : Path → Prop
  | top : Visits path path
  | entry {r : Path} {n : Name} : (∀ c ∈ r.head?, Ordinary c ∧ Plain c) → Ordinary n →
      visible n = true → Visits path (path ++ r ++ [n])

variable {fnmatch : Name → Name → Bool} {cwd root l m : Location} {fs s s' u : FileSystem}
  {t : Tree} {path q r : Path} {n : Name} {k : Kind} {links b fuel : ℕ}

theorem append_ne (hne : path ≠ []) (hempty : path ≠ [[]]) : path ++ r ≠ [] ∧ path ++ r ≠ [[]] := by
  refine ⟨List.append_ne_nil_of_left_ne_nil hne r, fun h => ?_⟩
  rcases List.append_eq_singleton_iff.mp h with ⟨h, -⟩ | ⟨h, -⟩
  · exact hne h
  · exact hempty h

theorem Stuck.of_sub (h : Stuck t links l n) {v : Tree} (hsub : v.Sub t)
    (hnode : v.node (l ++ [n]) = t.node (l ++ [n])) : Stuck v links l n where
  present := hnode ▸ h.present
  link hn := hnode ▸ h.link hn
  target hn b hb b' m k hfollows hk := h.target hn b hb b' m k (hfollows.mono hsub) (hsub m k hk)

/-- A hidden entry stays. -/
theorem stuck_of_hidden (hpresent : t.node (l ++ [n]) ≠ none) (hn : visible n ≠ true) :
    Stuck t links l n :=
  ⟨hpresent, fun h => absurd h hn, fun h => absurd h hn⟩

/-- An entry stays that leads nowhere, or to a directory that it is not. -/
theorem stuck_of_stat (hpresent : t.node (l ++ [n]) ≠ none)
    (hdir : t.node (l ++ [n]) ≠ some .directory)
    (h : ∀ b m k, t.Follows links l [n] b m → t.node m = some k → k = .directory) :
    Stuck t links l n where
  present := hpresent
  link _ := hdir
  target _ b hb b' m k hfollows hk := by
    have hmore := hfollows.add (links - b)
    rw [Nat.add_sub_cancel' hb] at hmore
    exact h _ m k hmore hk

section Run

variable (hroot : fs.Follows maxLinks (start cwd path) path links root)
  (hdir : fs.node root = some .directory) (hne : path ≠ []) (hempty : path ≠ [[]])
include hroot

/-- A path behind the first one goes through its directory. -/
theorem follows_root (hsub : s.Sub fs.toTree)
    (h : s.Follows maxLinks (start cwd path) (path ++ r) b l) :
    s.Follows links root r b l := by
  cases r with
  | nil =>
    rw [List.append_nil] at h
    obtain ⟨rfl, rfl⟩ := (h.mono hsub).unique hroot
    exact .done
  | cons c r =>
    obtain ⟨b', m, hpath, hrest⟩ := h.split (List.cons_ne_nil c r)
    obtain ⟨rfl, rfl⟩ := (hpath.mono hsub).unique hroot
    exact hrest

/-- The directory that the first path names is the one that it led to. -/
theorem located_top (hsub : s.Sub fs.toTree) (h : s.locate cwd path = some m)
    (hm : s.node m = some .directory) : m = root := by
  obtain ⟨b, hfollows⟩ := FileSystem.follows_of_located h hm
  exact ((hfollows.mono hsub).unique hroot).2

include hne hempty

theorem located_entry (hsub : s.Sub fs.toTree) (hn : Ordinary n)
    (h : s.locate cwd (path ++ r ++ [n]) = some m) :
    ∃ b l, s.Follows links root r b l ∧ m = l ++ [n] := by
  obtain ⟨hr, hr'⟩ := append_ne (r := r) hne hempty
  obtain ⟨b, l, hfollows, rfl⟩ := (locate_append_singleton hr hr' hn).mp h
  rw [start_append hne hempty] at hfollows
  exact ⟨b, l, follows_root hroot hsub hfollows, rfl⟩

theorem stat_entry_eq_some (hsub : s.Sub fs.toTree) (h : s.stat cwd (path ++ r) = some k) :
    ∃ b m, s.Follows links root r b m ∧ s.node m = some k := by
  obtain ⟨hr, hr'⟩ := append_ne (r := r) hne hempty
  obtain ⟨b, m, hfollows, hm⟩ := (stat_eq_some hr hr').mp h
  rw [start_append hne hempty] at hfollows
  exact ⟨b, m, follows_root hroot hsub hfollows, hm⟩

/-- The pattern of a path that the calls meet matches only such paths. -/
theorem Visits.glob (hno : NoPatterns fs.toTree root path) (hsub : s.Sub fs.toTree)
    (hv : Visits path q) (hstat : s.stat cwd q = some .directory) :
    ∀ q' ∈ s.glob fnmatch cwd q, Visits path q' := by
  intro q' hq'
  -- behind a name in the directory whose characters stand for themselves
  have hbehind : ∀ c rest, Ordinary c → Plain c → q = path ++ [c] ++ rest → Visits path q' := by
    rintro c rest hc hplain rfl
    have hparts : ∀ c' ∈ path ++ [c], Plain c' := by
      intro c' hc'
      rcases List.mem_append.mp hc' with hc' | hc'
      · exact hno.parts c' hc'
      · exact List.mem_singleton.mp hc' ▸ hplain
    obtain ⟨r, n, l, rfl, hn, hmem⟩ := mem_glob hparts hq'
    have hvisits : Visits path (path ++ (c :: r) ++ [n]) := by
      refine .entry ?_ (s.ordinary l n (FileSystem.mem_children.mp hmem)) hn
      simpa using ⟨hc, hplain⟩
    rwa [List.append_cons path c r] at hvisits
  cases hv with
  | top =>
    obtain ⟨b, l, hfollows, hl⟩ := (stat_eq_some hne hempty).mp hstat
    rw [glob_eq hno.parts hne hempty hfollows hl] at hq'
    obtain ⟨n, hn, rfl⟩ := List.mem_map.mp hq'
    obtain ⟨hmem, hvisible⟩ := List.mem_filter.mp hn
    have hvisits : Visits path (path ++ [] ++ [n]) :=
      .entry (by simp) (s.ordinary l n (FileSystem.mem_children.mp hmem)) hvisible
    rwa [List.append_nil] at hvisits
  | @entry r n hr hn hvisible =>
    cases r with
    | cons c r =>
      obtain ⟨hc, hplain⟩ := hr c rfl
      exact hbehind c (r ++ [n]) hc hplain (by simp)
    | nil =>
      rw [List.append_nil] at hstat hbehind
      obtain ⟨b, m, hfollows, hm⟩ := stat_entry_eq_some hroot hne hempty hsub hstat
      refine hbehind n [] hn ?_ (List.append_nil _).symm
      -- the entry is itself no regular file, as the path leads to a directory
      obtain ⟨k, hk, hend⟩ := hfollows.first hn
      have hfile : k ≠ .file := by
        rintro rfl
        rw [hend rfl, hk] at hm
        cases hm
      exact hno.entries root n k (List.prefix_refl root) (hsub _ _ hk) hfile

/-- The directories that the calls remove are not stuck. -/
theorem Stuck.rmdir (hsub : s.Sub fs.toTree) (hv : Visits path q) (h : Stuck s.toTree links l n)
    (hl : root <+: l) : Stuck (s.rmdir cwd q).toTree links l n := by
  refine h.of_sub FileSystem.rmdir_sub (FileSystem.rmdir_of_ne ?_)
  rintro m hm hnode - rfl
  cases hv with
  | top =>
    have heq := located_top hroot hsub hm hnode
    have hlen := hl.length_le
    rw [← heq, List.length_append, List.length_singleton] at hlen
    omega
  | @entry r n' hr hn hvisible =>
    obtain ⟨b, l', hrest, heq⟩ := located_entry hroot hne hempty hsub hn hm
    obtain ⟨-, hn'⟩ := List.append_inj' heq rfl
    obtain rfl : n = n' := by simpa using hn'
    exact h.link hvisible hnode

include hdir

/-- What the first path comes to is a directory as long as it is there. -/
theorem kind_eq_directory (hsub : s.Sub fs.toTree) (h : s.stat cwd path = some k) :
    k = .directory := by
  obtain ⟨b, m, hfollows, hm⟩ := (stat_eq_some hne hempty).mp h
  obtain ⟨-, rfl⟩ := (hfollows.mono hsub).unique hroot
  exact Option.some.inj ((hsub _ _ hm).symm.trans hdir)

/-- What the calls unlink is not a stuck entry. -/
theorem Stuck.unlink (hsub : s.Sub fs.toTree) (hv : Visits path q) (h : Stuck s.toTree links l n)
    (hstat : s.stat cwd q = some k) (hk : k ≠ .directory) :
    Stuck (s.unlink cwd q).toTree links l n := by
  refine h.of_sub FileSystem.unlink_sub (FileSystem.unlink_of_ne ?_)
  rintro m hm - rfl
  cases hv with
  | top => exact hk (kind_eq_directory hroot hdir hne hempty hsub hstat)
  | @entry r n' hr hn hvisible =>
    obtain ⟨b, l', hrest, heq⟩ := located_entry hroot hne hempty hsub hn hm
    obtain ⟨rfl, hn'⟩ := List.append_inj' heq rfl
    obtain rfl : n = n' := by simpa using hn'
    rw [List.append_assoc] at hstat
    obtain ⟨b', m, hfollows, hm'⟩ := stat_entry_eq_some hroot hne hempty hsub hstat
    obtain ⟨b'', l', hrest', hlast⟩ := hfollows.split (List.cons_ne_nil n [])
    obtain ⟨rfl, rfl⟩ := hrest.unique hrest'
    exact hk (h.target hvisible b hrest.le b' m k hlast hm')

/-- The calls go on with all that is in the directory and keep a stuck entry. -/
theorem recursiveRemove_stuck (hno : NoPatterns fs.toTree root path) (hl : root <+: l)
    (h : recursiveRemove fnmatch cwd fuel s q = .ok s') (hv : Visits path q)
    (hs : s.Sub fs.toTree ∧ Stuck s.toTree links l n) :
    s'.Sub fs.toTree ∧ Stuck s'.toTree links l n := by
  refine recursiveRemove_invariant (V := Visits path)
    (I := fun s => s.Sub fs.toTree ∧ Stuck s.toTree links l n) ?_ ?_ ?_ h hv hs
  · intro s q k hs hv hstat hk
    exact ⟨FileSystem.unlink_sub.trans hs.1, hs.2.unlink hroot hdir hne hempty hs.1 hv hstat hk⟩
  · intro s q hs hv hstat
    exact hv.glob hroot hne hempty hno hs.1 hstat
  · intro s q hs hv
    exact ⟨FileSystem.rmdir_sub.trans hs.1, hs.2.rmdir hroot hne hempty hs.1 hv hl⟩

theorem removeAll_stuck (hno : NoPatterns fs.toTree root path) (hl : root <+: l)
    {paths : List Path}
    (h : removeAll cwd (recursiveRemove fnmatch cwd fuel) paths s = .ok s')
    (hv : ∀ q ∈ paths, Visits path q) (hs : s.Sub fs.toTree ∧ Stuck s.toTree links l n) :
    s'.Sub fs.toTree ∧ Stuck s'.toTree links l n := by
  refine removeAll_invariant (V := Visits path)
    (I := fun s => s.Sub fs.toTree ∧ Stuck s.toTree links l n) ?_ ?_ h hv hs
  · intro s q k hs hv hstat hk
    exact ⟨FileSystem.unlink_sub.trans hs.1, hs.2.unlink hroot hdir hne hempty hs.1 hv hstat hk⟩
  · intro s q s' hcall hv hs
    exact recursiveRemove_stuck hroot hdir hne hempty hno hl hcall hv hs

/-- The directory stays as well when its path does not name it or goes through it. -/
theorem root_stays (hno : NoPatterns fs.toTree root path)
    (hnamed : ¬ Named fs.toTree cwd links root path)
    (h : recursiveRemove fnmatch cwd fuel fs path = .ok s') : s'.node root = some .directory := by
  refine (recursiveRemove_invariant (V := Visits path)
    (I := fun s => s.Sub fs.toTree ∧ s.node root = some .directory) ?_ ?_ ?_ h .top
      ⟨fun _ _ hm => hm, hdir⟩).2
  · rintro s q k ⟨hsub, hs⟩ - - -
    refine ⟨FileSystem.unlink_sub.trans hsub, ?_⟩
    rw [FileSystem.unlink_of_ne, hs]
    rintro m - hnode rfl
    exact hnode hs
  · intro s q hs hv hstat
    exact hv.glob hroot hne hempty hno hs.1 hstat
  · rintro s q ⟨hsub, hs⟩ hv
    refine ⟨FileSystem.rmdir_sub.trans hsub, ?_⟩
    rw [FileSystem.rmdir_of_ne, hs]
    rintro m hm - hchildren rfl
    cases hv with
    | top =>
      -- the directory is empty, and its path still leads to it
      have hbelow : s.Sub (fs.without (below root)) := by
        intro m k hk
        refine without_node_eq_some.mpr ⟨?_, hsub m k hk⟩
        rintro ⟨⟨r, rfl⟩, hr⟩
        rw [FileSystem.node_of_no_children hchildren] at hk
        · cases hk
        · exact fun h => hr (by rw [h, List.append_nil])
      obtain ⟨b, hfollows⟩ := FileSystem.follows_of_located hm hs
      obtain ⟨rfl, -⟩ := (hfollows.mono hsub).unique hroot
      exact hnamed ⟨hne, hempty, hfollows.mono hbelow, locate_mono hm hbelow⟩
    | @entry r n hr hn hvisible =>
      -- the path goes through an entry of the directory, which is not empty then
      obtain ⟨b, l, hrest, heq⟩ := located_entry hroot hne hempty hsub hn hm
      cases r with
      | nil =>
        cases hrest
        simp at heq
      | cons c r =>
        obtain ⟨k, hk, -⟩ := hrest.first (hr c rfl).1
        have hmem : c ∈ s.children root := FileSystem.mem_children.mpr (by simp [hk])
        rw [hchildren] at hmem
        cases hmem

end Run

end Redx.Files
