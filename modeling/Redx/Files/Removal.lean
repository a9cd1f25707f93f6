import Redx.Files.Remains

/-!
# When a directory tree is removed

In the directories under a path without pattern characters the calls get to each entry, or leave
one that stays.
-/
namespace Redx.Files
open Library Library.Files Library.Files.Tree

variable {fnmatch : Name → Name → Bool} {cwd root l : Location} {fs s s' u : FileSystem}
  {t : Tree} {path q : Path} {n : Name} {links fuel : ℕ} {before after : List Name}

/-- One entry can be cleared when those before it are gone. -/
structure Entry (fnmatch : Name → Name → Bool) (cwd : Location) (t : Tree) (l : Location)
    (q : Path) (before : List Name) (n : Name) : Prop where
  link : ∀ target, t.node (l ++ [n]) = some (.link target) →
    ∃ k, (t.without (trees l before)).stat cwd (q ++ [n]) = some k ∧ k ≠ .directory
  directory : t.node (l ++ [n]) = some .directory →
    Clearable fnmatch cwd (t.without (trees l before)) (l ++ [n]) (q ++ [n])

/-- An entry below the directory stays. -/
def Stays (s : FileSystem) (links : ℕ) (root : Location) : Prop :=
  ∃ l n, root <+: l ∧ Stuck s.toTree links l n

/-- A directory above an entry that stays is there. -/
theorem Stays.node (h : Stays s links root) : s.node root = some .directory := by
  obtain ⟨l, n, ⟨r, rfl⟩, hstuck⟩ := h
  refine FileSystem.node_of_append (r := r ++ [n]) ?_ (by simp)
  rw [← List.append_assoc]
  exact hstuck.present

/-- Calls with this fuel, in the directory or below, remove all of their directory or leave an
entry that stays. -/
def ClearsOrStays (fnmatch : Name → Name → Bool) (cwd : Location) (fs : FileSystem)
    (root : Location) (path : Path) (links fuel : ℕ) : Prop :=
  ∀ s l q s', s.Sub fs.toTree → root <+: l → Visits path q → (∀ c ∈ q, Plain c) →
    Named s.toTree cwd links l q → s.node l = some .directory → l ≠ [] →
    recursiveRemove fnmatch cwd fuel s q = .ok s' →
    (Clearable fnmatch cwd s.toTree l q ∧ s'.toTree = s.without (under l)) ∨ Stays s' links root

/-- What holds of the first of the names, and of the others with it before them, holds of all. -/
theorem forall_split_cons {P : List Name → Name → Prop} (hfirst : P before n)
    (hrest : ∀ b n' a, after = b ++ n' :: a → P (before ++ [n] ++ b) n') :
    ∀ b n' a, n :: after = b ++ n' :: a → P (before ++ b) n' := by
  intro b n' a heq
  cases b with
  | nil =>
    obtain ⟨rfl, -⟩ := List.cons.inj heq
    rwa [List.append_nil]
  | cons n'' b =>
    obtain ⟨rfl, hafter⟩ := List.cons.inj heq
    rw [List.append_cons]
    exact hrest b n' a hafter

/-- An entry whose turn it is stays, or is unlinked, or is a directory. -/
theorem entry_cases (hnamed : Named s.toTree cwd links l q)
    (hsplit : s.children l = before ++ n :: after) (hu : u.toTree = s.without (trees l before)) :
    Stuck u.toTree links l n ∨
    (∃ k, u.stat cwd (q ++ [n]) = some k ∧ k ≠ .directory ∧
      (u.unlink cwd (q ++ [n])).toTree = u.without (under (l ++ [n])) ∧
      Entry fnmatch cwd s.toTree l q before n) ∨
    u.stat cwd (q ++ [n]) = some .directory ∧ u.node (l ++ [n]) = some .directory := by
  obtain ⟨hnode, hpresent, hordinary⟩ := entry_of_eq_without hsplit hu
  rw [← hnode] at hpresent
  obtain ⟨hfollows, -⟩ := hnamed.of_sub (sub_of_eq_without hu)
  have hstat : ∀ {b m k}, u.Follows links l [n] b m → u.node m = some k →
      u.stat cwd (q ++ [n]) = some k :=
    stat_of_follows hfollows hnamed.ne_nil hnamed.ne_empty (u.parent l n hpresent)
  have hself : u.node (l ++ [n]) = some .directory → u.stat cwd (q ++ [n]) = some .directory :=
    fun hentry => hstat (.directory hordinary hentry .done) hentry
  cases hk : u.stat cwd (q ++ [n]) with
  | none =>
    -- a link that leads nowhere
    refine .inl (stuck_of_stat hpresent (fun hentry => ?_) fun b m k hf hm => ?_)
    · cases hk.symm.trans (hself hentry)
    · cases hk.symm.trans (hstat hf hm)
  | some k =>
    by_cases hkdir : k = .directory
    · subst hkdir
      by_cases hentry : u.node (l ++ [n]) = some .directory
      · exact .inr (.inr ⟨rfl, hentry⟩)
      · -- a link to a directory
        refine .inl (stuck_of_stat hpresent hentry fun b m k hf hm => ?_)
        exact Option.some.inj ((hstat hf hm).symm.trans hk)
    · -- a regular file, or a link to something else than a directory
      have hentry : u.node (l ++ [n]) ≠ some .directory :=
        fun hentry => hkdir (Option.some.inj (hk.symm.trans (hself hentry)))
      obtain ⟨k', hk'⟩ := Option.ne_none_iff_exists'.mp hpresent
      have hkdir' : k' ≠ .directory := fun h => hentry (h ▸ hk')
      refine .inr (.inl ⟨k, rfl, hkdir,
        unlink_entry hfollows hnamed.ne_nil hnamed.ne_empty hk' hkdir', ?_, ?_⟩)
      · exact fun _ _ => ⟨k, hu ▸ hk, hkdir⟩
      · exact fun h => absurd (hnode.trans h) hentry

section Run

variable (hroot : fs.Follows maxLinks (start cwd path) path links root)
  (hdir : fs.node root = some .directory) (hne : path ≠ []) (hempty : path ≠ [[]])
  (hno : NoPatterns fs.toTree root path)
include hroot hdir hne hempty hno

theorem removeAll_stays {names : List Name} (hl : root <+: l)
    (hpaths : ∀ n ∈ names, Visits path (q ++ [n]))
    (h : removeAll cwd (recursiveRemove fnmatch cwd fuel) (names.map fun n => q ++ [n]) u = .ok s')
    (hsub : u.Sub fs.toTree) (hstuck : Stuck u.toTree links l n) : Stays s' links root := by
  refine ⟨l, n, hl, (removeAll_stuck hroot hdir hne hempty hno hl h ?_ ⟨hsub, hstuck⟩).2⟩
  intro q' hq'
  obtain ⟨n', hn', rfl⟩ := List.mem_map.mp hq'
  exact hpaths n' hn'

/-- The loop over the entries of a directory. -/
theorem removeAll_entries (hcalls : ClearsOrStays fnmatch cwd fs root path links fuel)
    (hsub : s.Sub fs.toTree) (hl : root <+: l) (hplain : ∀ c ∈ q, Plain c)
    (hnamed : Named s.toTree cwd links l q)
    (hvisits : ∀ n ∈ s.children l, Visits path (q ++ [n])) (hsplit : s.children l = before ++ after)
    (hu : u.toTree = s.without (trees l before))
    (h : removeAll cwd (recursiveRemove fnmatch cwd fuel) (after.map (q ++ [·])) u = .ok s') :
    ((∀ b n a, after = b ++ n :: a → Entry fnmatch cwd s.toTree l q (before ++ b) n) ∧
      s'.toTree = s.without (trees l (s.children l))) ∨ Stays s' links root := by
  induction after generalizing before u with
  | nil =>
    obtain rfl := Except.ok.inj h
    rw [List.append_nil] at hsplit
    exact .inl ⟨by simp, hsplit ▸ hu⟩
  | cons n after ih =>
    obtain ⟨hnode, hpresent, hordinary⟩ := entry_of_eq_without hsplit hu
    rw [← hnode] at hpresent
    have hbelow := sub_of_eq_without hu
    have hldir := u.parent l n hpresent
    have husub : u.Sub fs.toTree := by
      rw [hu]
      exact (without_sub _ _).trans hsub
    have hpaths : ∀ n' ∈ n :: after, Visits path (q ++ [n']) :=
      fun n' hn' => hvisits n' (hsplit ▸ List.mem_append_right before hn')
    -- what is left of the loop once the entry is gone
    have hnext : ∀ {v : FileSystem}, v.toTree = u.without (under (l ++ [n])) →
        Entry fnmatch cwd s.toTree l q before n →
        removeAll cwd (recursiveRemove fnmatch cwd fuel) (after.map fun n => q ++ [n]) v = .ok s' →
        ((∀ b n' a, n :: after = b ++ n' :: a → Entry fnmatch cwd s.toTree l q (before ++ b) n') ∧
          s'.toTree = s.without (trees l (s.children l))) ∨ Stays s' links root := by
      intro v hv hentry hrest
      have hsplit' := hsplit.trans (List.append_cons before n after)
      refine (ih hsplit' (by rw [hv, hu, without_trees_append]) hrest).imp_left ?_
      rintro ⟨hentries, hs'⟩
      exact ⟨forall_split_cons hentry hentries, hs'⟩
    rcases entry_cases hnamed hsplit hu with
      hstuck | ⟨k, hk, hkdir, hgone, hentry⟩ | ⟨hstat, hentry⟩
    · exact .inr (removeAll_stays hroot hdir hne hempty hno hl hpaths h husub hstuck)
    · rw [List.map_cons, removeAll_unlink hk hkdir] at h
      exact hnext hgone hentry h
    · have hplain' : ∀ c ∈ q ++ [n], Plain c := by
        intro c hc
        rcases List.mem_append.mp hc with hc | hc
        · exact hplain c hc
        · rw [List.mem_singleton.mp hc]
          exact hno.entries l n _ hl (husub _ _ hentry) nofun
      obtain ⟨v, hrest, ⟨hnone, -⟩ | ⟨k, hk, hkdir, -⟩ | ⟨-, hcall⟩⟩ := removeAll_cases h
      · cases hnone.symm.trans hstat
      · exact absurd (Option.some.inj (hk.symm.trans hstat)) hkdir
      · rcases hcalls u (l ++ [n]) (q ++ [n]) v husub (hl.trans (List.prefix_append l [n]))
          (hpaths n List.mem_cons_self) hplain' (hnamed.child hbelow hldir hordinary hentry) hentry
          (by simp) hcall with ⟨hclear, hv⟩ | ⟨m, n', hm, hstuck⟩
        · refine hnext hv ⟨fun target h => ?_, fun _ => hu ▸ hclear⟩ hrest
          cases (hnode.trans h).symm.trans hentry
        · exact .inr (removeAll_stays hroot hdir hne hempty hno hm
            (fun n' hn' => hpaths n' (List.mem_cons_of_mem n hn')) hrest
            ((recursiveRemove_sub hcall).trans husub) hstuck)

theorem clearsOrStays : ClearsOrStays fnmatch cwd fs root path links fuel := by
  induction fuel with
  | zero =>
    intro s l q s' _ _ _ _ _ _ _ h
    cases h
  | succ fuel ih =>
    intro s l q s' hsub hl hv hplain hnamed hldir hlroot h
    have hself := hnamed.of_sub (without_sub _ _)
    have hstat : s.stat cwd q = some .directory :=
      (stat_eq_some hnamed.ne_nil hnamed.ne_empty).mpr ⟨links, l, hself.1, hldir⟩
    obtain ⟨hnone, -⟩ | ⟨k, hk, hkdir, -⟩ | ⟨f, u, hf, -, hlength, hu, rfl⟩ :=
      recursiveRemove_cases h
    · cases hnone.symm.trans hstat
    · exact absurd (Option.some.inj (hk.symm.trans hstat)) hkdir
    · obtain rfl := Nat.succ.inj hf
      have hglob : s.glob fnmatch cwd q = ((s.children l).filter visible).map fun n => q ++ [n] :=
        glob_eq hplain hnamed.ne_nil hnamed.ne_empty hself.1 hldir
      have hpaths : ∀ q' ∈ s.glob fnmatch cwd q, Visits path q' :=
        hv.glob hroot hne hempty hno hsub hstat
      by_cases hvisible : ∀ n ∈ s.children l, visible n = true
      · rw [List.filter_eq_self.mpr hvisible] at hglob
        rw [hglob] at hu hpaths
        have hsplit : s.children l = [] ++ s.children l := rfl
        rcases removeAll_entries hroot hdir hne hempty hno ih hsub hl hplain hnamed
          (fun n hn => hpaths _ (List.mem_map_of_mem hn)) hsplit without_trees_nil.symm hu with
          ⟨hentries, hutree⟩ | hstays
        · refine .inl ⟨.intro hlength hglob ?_ ?_, rmdir_cleared hnamed hlroot hldir hutree⟩
          · exact fun b n a target hsplit => (hentries b n a hsplit).link target
          · exact fun b n a hsplit => (hentries b n a hsplit).directory
        · obtain ⟨m, n, hm, hstuck⟩ := hstays
          have husub := (removeAll_sub hu).trans hsub
          exact .inr ⟨m, n, hm, hstuck.rmdir hroot hne hempty husub hv hm⟩
      · -- a hidden entry
        obtain ⟨n, hn⟩ := not_forall.mp hvisible
        obtain ⟨hmem, hhidden⟩ := Classical.not_imp.mp hn
        have hstuck : Stuck s.toTree links l n :=
          stuck_of_hidden (FileSystem.mem_children.mp hmem) hhidden
        exact .inr ⟨l, n, hl,
          (recursiveRemove_stuck hroot hdir hne hempty hno hl h hv ⟨hsub, hstuck⟩).2⟩

end Run

/-- A call on a directory returns, removes nothing outside of it and leaves it absent, if its path
names it and it can be cleared; and only if, where nothing means more in a pattern than itself. -/
theorem removes_iff (hstat : fs.stat cwd path = some .directory)
    (hfollow : fs.follow maxLinks (start cwd path) path = some (links, root)) :
    (Named fs.toTree cwd links root path ∧ Clearable fnmatch cwd fs.toTree root path →
      Removes fnmatch cwd fs path root) ∧
    (NoPatterns fs.toTree root path → Removes fnmatch cwd fs path root →
      Named fs.toTree cwd links root path ∧ Clearable fnmatch cwd fs.toTree root path) := by
  have hpath : path ≠ [] ∧ path ≠ [[]] := by
    refine not_or.mp fun h => ?_
    rw [stat, if_pos h] at hstat
    cases hstat
  have hroot := follow_eq_some.mp hfollow
  have hdir : fs.node root = some .directory := by
    obtain ⟨b, m, hfollows, hm⟩ := (stat_eq_some hpath.1 hpath.2).mp hstat
    obtain ⟨-, rfl⟩ := hfollows.unique hroot
    exact hm
  constructor
  · rintro ⟨hnamed, hclear⟩
    obtain ⟨s', hs', htree⟩ := hclear.removes rfl hnamed hdir (locate_ne_nil hnamed.located)
      (Nat.le_add_right 254 _)
    refine ⟨254, s', hs', fun m hm => ?_, ?_⟩
    · rw [htree, without_node_of_notMem hm]
    · rw [htree, without_node_of_mem (List.prefix_refl root)]
  · rintro hno ⟨fuel, s', hs', -, hgone⟩
    by_cases hnamed : Named fs.toTree cwd links root path
    · refine ⟨hnamed, ?_⟩
      rcases clearsOrStays hroot hdir hpath.1 hpath.2 hno fs root path s' (fun _ _ h => h)
        (List.prefix_refl root) .top hno.parts hnamed hdir (locate_ne_nil hnamed.located) hs' with
        ⟨hclear, -⟩ | hstays
      · exact hclear
      · cases hgone.symm.trans hstays.node
    · have hstays := root_stays hroot hdir hpath.1 hpath.2 hno hnamed hs'
      cases hgone.symm.trans hstays

/-- A file `f`, and a directory `t` in which `l` is a link to it. -/
def fileLinked : FileSystem :=
  ((FileSystem.bare.add [] [102] .file).add [] [116] .directory).add [[116]] [108]
    (.link [dotdot, [102]])

theorem removes_fileLinked : Removes (fun _ _ => false) [] fileLinked [[116]] [[116]] := by
  have hstat : fileLinked.stat [] [[116]] = some .directory := rfl
  have hfollow : fileLinked.follow maxLinks (start [] [[116]]) [[116]] = some (maxLinks, [[116]]) :=
    rfl
  have hself : (fileLinked.without (below [[116]])).node [[116]] = some .directory :=
    without_node_of_notMem fun h => h.2 rfl
  have hchildren : fileLinked.children [[116]] = [[108]] := rfl
  refine (removes_iff hstat hfollow).1
    ⟨⟨by decide, by decide, ?_, rfl⟩, .intro (by decide) rfl ?_ ?_⟩
  · exact .directory (by decide) hself .done
  · rintro before n after target hsplit -
    rw [hchildren, eq_comm, List.append_eq_singleton_iff] at hsplit
    obtain ⟨rfl, heq⟩ | ⟨-, heq⟩ := hsplit
    · obtain ⟨rfl, rfl⟩ := List.cons.inj heq
      rw [without_trees_nil]
      exact ⟨.file, rfl, by decide⟩
    · cases heq
  · intro before n after hsplit hnode
    have hmem : n ∈ fileLinked.children [[116]] := by
      rw [hsplit]
      exact List.mem_append_right before List.mem_cons_self
    rw [hchildren, List.mem_singleton] at hmem
    subst hmem
    cases hnode

/-- A file `f` in a directory `e`, and a directory `t` in which `l` is a link to that directory. -/
def directoryLinked : FileSystem :=
  (((FileSystem.bare.add [] [101] .directory).add [[101]] [102] .file).add [] [116] .directory).add
    [[116]] [108] (.link [dotdot, [101]])

/-- The file outside goes, the link and its directory stay. -/
theorem recursiveRemove_directoryLinked (fuel : ℕ) :
    ∃ s', recursiveRemove (fun _ _ => false) [] (fuel + 2) directoryLinked [[116]] = .ok s' ∧
      s'.node [[101], [102]] = none ∧ s'.node [[116]] = some .directory :=
  ⟨_, rfl, rfl, rfl⟩

theorem directoryLinked_not_removes :
    ¬ Removes (fun _ _ => false) [] directoryLinked [[116]] [[116]] := by
  rintro ⟨fuel, s', hs', houtside, -⟩
  match fuel with
  | 0 => cases hs'
  | 1 => cases hs'
  | fuel + 2 =>
    obtain ⟨s'', hs'', hgone, -⟩ := recursiveRemove_directoryLinked fuel
    obtain rfl := Except.ok.inj (hs'.symm.trans hs'')
    have hother : [[101], [102]] ∉ under [[116]] := by
      rintro ⟨r, hr⟩
      cases hr
    have hfile := houtside [[101], [102]] hother
    cases hgone.symm.trans hfile

end Redx.Files
