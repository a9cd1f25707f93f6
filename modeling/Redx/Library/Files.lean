import Mathlib.Data.List.TakeWhile
import Mathlib.Data.Nat.Notation
import Mathlib.Data.Set.Defs
import Mathlib.Logic.Function.Basic

/-!
# A tree of files

Regular files, directories and symbolic links, each at one place, the list of names that leads to
it from the root. A path is followed part by part; what it comes to does not change while other
entries are removed, as long as it can be followed at all.
-/
namespace Redx.Library.Files

/-- A part of a path; between two slashes it may be empty. -/
abbrev Name := List UInt8

abbrev Path := List Name

abbrev Location := List Name

inductive Kind where
  | file
  | directory
  | link (target : Path)
  deriving DecidableEq, Repr

/-- What is where, and the order in which a directory lists its names. -/
@[ext]
structure Tree where
  node : Location → Option Kind
  names : Location → List Name

def dot : Name := [46]

def dotdot : Name := [46, 46]

/-- A name that an entry of a directory can have. -/
def Ordinary (c : Name) : Prop := c ≠ [] ∧ c ≠ dot ∧ c ≠ dotdot

instance instDecidableOrdinary (c : Name) : Decidable (Ordinary c) :=
  inferInstanceAs (Decidable (_ ∧ _))

/-- Where a path begins: an absolute one at the root. -/
def start (cwd : Location) : Path → Location
  | [] :: _ :: _ => []
  | _ => cwd

namespace Tree

def walk (t : Tree) (jump : Location → Path → Option (ℕ × Location)) (links : ℕ) :
    Location → Path → Option (ℕ × Location)
  | l, [] => some (links, l)
  | l, c :: rest =>
    if c = [] ∨ c = dot then t.walk jump links l rest
    else if c = dotdot then t.walk jump links l.dropLast rest
    else
      match t.node (l ++ [c]) with
      | none => none
      | some .file => if rest = [] then some (links, l ++ [c]) else none
      | some .directory => t.walk jump links (l ++ [c]) rest
      | some (.link target) => jump (start l target) (target ++ rest)

/-- The place that a path leads to and how many links may still be followed. -/
def follow (t : Tree) : ℕ → Location → Path → Option (ℕ × Location)
  | 0 => t.walk (fun _ _ => none) 0
  | links + 1 => t.walk (t.follow links) (links + 1)

/-- The ways in which a path leads to a place. -/
inductive Follows (t : Tree) : ℕ → Location → Path → ℕ → Location → Prop
  | done {links : ℕ} {l : Location} : Follows t links l [] links l
  | same {links b : ℕ} {l m : Location} {c : Name} {rest : Path} : c = [] ∨ c = dot →
      Follows t links l rest b m → Follows t links l (c :: rest) b m
  | up {links b : ℕ} {l m : Location} {rest : Path} :
      Follows t links l.dropLast rest b m → Follows t links l (dotdot :: rest) b m
  | file {links : ℕ} {l : Location} {c : Name} : Ordinary c → t.node (l ++ [c]) = some .file →
      Follows t links l [c] links (l ++ [c])
  | directory {links b : ℕ} {l m : Location} {c : Name} {rest : Path} : Ordinary c →
      t.node (l ++ [c]) = some .directory → Follows t links (l ++ [c]) rest b m →
      Follows t links l (c :: rest) b m
  | link {links b : ℕ} {l m : Location} {c : Name} {rest target : Path} : Ordinary c →
      t.node (l ++ [c]) = some (.link target) →
      Follows t links (start l target) (target ++ rest) b m →
      Follows t (links + 1) l (c :: rest) b m

/-- The links that `stat` follows before it gives up. -/
def maxLinks : ℕ := 40

/-- The kind of what a path leads to; the empty path leads nowhere. -/
def stat (t : Tree) (cwd : Location) (path : Path) : Option Kind :=
  if path = [] ∨ path = [[]] then none
  else (t.follow maxLinks (start cwd path) path).bind fun r => t.node r.2

/-- The entry that the last part of a path names, which is not followed; slashes behind it do not
count. -/
def locate (t : Tree) (cwd : Location) (path : Path) : Option Location :=
  match path.reverse.dropWhile (· = []) with
  | [] => none
  | n :: front =>
    if n = dot ∨ n = dotdot then none
    else (t.follow maxLinks (start cwd path) front.reverse).map fun r => r.2 ++ [n]

/-- The names in a directory, without those of the directory itself and the one above it. -/
def children (t : Tree) (l : Location) : List Name :=
  (t.names l).filter fun n => (t.node (l ++ [n])).isSome

/-- `readdir` on a path. -/
def readdir (t : Tree) (cwd : Location) (path : Path) : List Name :=
  match t.follow maxLinks (start cwd (path ++ [[]])) (path ++ [[]]) with
  | none => []
  | some r => if t.node r.2 = some .directory then dot :: dotdot :: t.children r.2 else []

end Tree

/-- `*` matches no name that begins with a period. -/
def visible (n : Name) : Bool := n.head? ≠ some 46

/-- The name has a character of a pattern: `*`, `?` or `[`. -/
def special (c : Name) : Bool := c.any fun x => x = 42 || x = 63 || x = 91

/-- A pattern without its backslashes. -/
def unescape : Name → Name
  | 92 :: x :: rest => x :: unescape rest
  | x :: rest => x :: unescape rest
  | [] => []

/-- A part of a pattern that stands for itself. -/
def Plain (c : Name) : Prop := special c = false ∧ 92 ∉ c

namespace Tree

/-- The paths that a pattern matches, part by part; `fnmatch` compares one part with a name. -/
def expand (fnmatch : Name → Name → Bool) (t : Tree) (cwd : Location) :
    Path → List Path → List Path
  | [], found => found
  | c :: rest, found => expand fnmatch t cwd rest <| found.flatMap fun p =>
      if special c then
        ((t.readdir cwd p).filter fun n => (visible n || !visible c) && fnmatch c n).map
          fun n => p ++ [n]
      else [p ++ [unescape c]]

/-- `glob` with a path and `/*` behind it. -/
def glob (fnmatch : Name → Name → Bool) (t : Tree) (cwd : Location) (path : Path) : List Path :=
  (t.expand fnmatch cwd path [[]]).flatMap fun p =>
    ((t.readdir cwd p).filter visible).map fun n => p ++ [n]

/-- Every entry of one tree is in the other. -/
def Sub (t u : Tree) : Prop := ∀ l k, t.node l = some k → u.node l = some k

variable {t u : Tree} {links b b' d : ℕ} {l m m' : Location} {c : Name} {p q rest : Path}

theorem follow_eq (links : ℕ) : ∃ jump, t.follow links = t.walk jump links := by
  cases links with
  | zero => exact ⟨_, rfl⟩
  | succ n => exact ⟨_, rfl⟩

theorem Follows.follow_eq (h : t.Follows links l p b m) : t.follow links l p = some (b, m) := by
  induction h with
  | @done links l =>
    obtain ⟨jump, hf⟩ := Tree.follow_eq (t := t) links
    rw [hf, walk]
  | @same links b l m c rest hc _ ih =>
    obtain ⟨jump, hf⟩ := Tree.follow_eq (t := t) links
    rw [hf] at ih ⊢
    rw [walk, if_pos hc, ih]
  | @up links b l m rest _ ih =>
    obtain ⟨jump, hf⟩ := Tree.follow_eq (t := t) links
    rw [hf] at ih ⊢
    rw [walk, if_neg (by decide), if_pos rfl, ih]
  | @file links l c hc hnode =>
    obtain ⟨jump, hf⟩ := Tree.follow_eq (t := t) links
    rw [hf, walk, if_neg (not_or.mpr ⟨hc.1, hc.2.1⟩), if_neg hc.2.2, hnode]
    exact if_pos rfl
  | @directory links b l m c rest hc hnode _ ih =>
    obtain ⟨jump, hf⟩ := Tree.follow_eq (t := t) links
    rw [hf] at ih ⊢
    rw [walk, if_neg (not_or.mpr ⟨hc.1, hc.2.1⟩), if_neg hc.2.2, hnode]
    exact ih
  | @link links b l m c rest target hc hnode _ ih =>
    rw [follow, walk, if_neg (not_or.mpr ⟨hc.1, hc.2.1⟩), if_neg hc.2.2, hnode]
    exact ih

theorem follows_of_walk {jump : Location → Path → Option (ℕ × Location)}
    (hjump : ∀ l p, jump l p = some (b, m) → ∃ n, links = n + 1 ∧ t.Follows n l p b m)
    (h : t.walk jump links l p = some (b, m)) : t.Follows links l p b m := by
  induction p generalizing l with
  | nil =>
    obtain ⟨rfl, rfl⟩ := Prod.mk.inj (Option.some.inj h)
    exact .done
  | cons c rest ih =>
    rw [walk] at h
    split at h
    · rename_i hc
      exact .same hc (ih h)
    · rename_i hc
      obtain ⟨hne, hdot⟩ := not_or.mp hc
      split at h
      · rename_i hup
        exact hup ▸ .up (ih h)
      · rename_i hup
        have hord : Ordinary c := ⟨hne, hdot, hup⟩
        split at h
        · cases h
        · rename_i hnode
          split at h
          · rename_i hrest
            obtain ⟨rfl, rfl⟩ := Prod.mk.inj (Option.some.inj h)
            subst hrest
            exact .file hord hnode
          · cases h
        · rename_i hnode
          exact .directory hord hnode (ih h)
        · rename_i target hnode
          obtain ⟨n, rfl, hfollows⟩ := hjump _ _ h
          exact .link hord hnode hfollows

theorem follow_eq_some : t.follow links l p = some (b, m) ↔ t.Follows links l p b m := by
  refine ⟨fun h => ?_, Follows.follow_eq⟩
  induction links generalizing l p with
  | zero =>
    refine follows_of_walk (fun l p hjump => ?_) h
    cases hjump
  | succ n ih => exact follows_of_walk (fun l p h => ⟨n, rfl, ih h⟩) h

namespace Follows

theorem unique (h : t.Follows links l p b m) (h' : t.Follows links l p b' m') :
    b = b' ∧ m = m' :=
  Prod.mk.inj (Option.some.inj (h.follow_eq.symm.trans h'.follow_eq))

/-- What a path leads to among fewer entries it leads to among more. -/
theorem mono (h : t.Follows links l p b m) (hsub : t.Sub u) : u.Follows links l p b m := by
  induction h with
  | done => exact .done
  | same hc _ ih => exact .same hc ih
  | up _ ih => exact .up ih
  | file hc hnode => exact .file hc (hsub _ _ hnode)
  | directory hc hnode _ ih => exact .directory hc (hsub _ _ hnode) ih
  | link hc hnode _ ih => exact .link hc (hsub _ _ hnode) ih

theorem le (h : t.Follows links l p b m) : b ≤ links := by
  induction h with
  | done => exact Nat.le_refl _
  | same _ _ ih => exact ih
  | up _ ih => exact ih
  | file => exact Nat.le_refl _
  | directory _ _ _ ih => exact ih
  | link _ _ _ ih => exact Nat.le_succ_of_le ih

/-- And what it leads to when few links may be followed, when more may. -/
theorem add (h : t.Follows links l p b m) (d : ℕ) : t.Follows (links + d) l p (b + d) m := by
  induction h with
  | done => exact .done
  | same hc _ ih => exact .same hc ih
  | up _ ih => exact .up ih
  | file hc hnode => exact .file hc hnode
  | directory hc hnode _ ih => exact .directory hc hnode ih
  | @link links b l m c rest target hc hnode _ ih =>
    rw [Nat.add_right_comm]
    exact .link hc hnode ih

theorem append (h : t.Follows links l p b m) (hm : t.node m ≠ some .file)
    (h' : t.Follows b m q b' m') : t.Follows links l (p ++ q) b' m' := by
  induction h with
  | done => exact h'
  | same hc _ ih => exact .same hc (ih hm h')
  | up _ ih => exact .up (ih hm h')
  | file _ hnode => exact absurd hnode hm
  | directory hc hnode _ ih => exact .directory hc hnode (ih hm h')
  | link hc hnode _ ih =>
    have hlater := ih hm h'
    rw [List.append_assoc] at hlater
    exact .link hc hnode hlater

theorem split (h : t.Follows links l (p ++ q) b' m') (hq : q ≠ []) :
    ∃ b m, t.Follows links l p b m ∧ t.Follows b m q b' m' := by
  have hnil : ∀ {links r l b' m'}, q = r → t.Follows links l r b' m' →
      ∃ b m, t.Follows links l [] b m ∧ t.Follows b m q b' m' := by
    rintro links _ l b' m' rfl h
    exact ⟨links, l, .done, h⟩
  generalize hpq : p ++ q = r at h
  induction h generalizing p with
  | @done links l =>
    obtain ⟨-, rfl⟩ := List.append_eq_nil_iff.mp hpq
    exact absurd rfl hq
  | @same links b l m c rest hc h ih =>
    cases p with
    | nil => exact hnil hpq (.same hc h)
    | cons c' p =>
      obtain ⟨rfl, hrest⟩ := List.cons.inj hpq
      obtain ⟨b', m', h', h''⟩ := ih hrest
      exact ⟨b', m', .same hc h', h''⟩
  | @up links b l m rest h ih =>
    cases p with
    | nil => exact hnil hpq (.up h)
    | cons c' p =>
      obtain ⟨rfl, hrest⟩ := List.cons.inj hpq
      obtain ⟨b', m', h', h''⟩ := ih hrest
      exact ⟨b', m', .up h', h''⟩
  | @file links l c hc hnode =>
    cases p with
    | nil => exact hnil hpq (.file hc hnode)
    | cons c' p =>
      obtain ⟨-, hrest⟩ := List.cons.inj hpq
      exact absurd (List.append_eq_nil_iff.mp hrest).2 hq
  | @directory links b l m c rest hc hnode h ih =>
    cases p with
    | nil => exact hnil hpq (.directory hc hnode h)
    | cons c' p =>
      obtain ⟨rfl, hrest⟩ := List.cons.inj hpq
      obtain ⟨b', m', h', h''⟩ := ih hrest
      exact ⟨b', m', .directory hc hnode h', h''⟩
  | @link links b l m c rest target hc hnode h ih =>
    cases p with
    | nil => exact hnil hpq (.link hc hnode h)
    | cons c' p =>
      obtain ⟨rfl, hrest⟩ := List.cons.inj hpq
      have htarget : (target ++ p) ++ q = target ++ rest :=
        (List.append_assoc ..).trans (congrArg (target ++ ·) hrest)
      obtain ⟨b', m', h', h''⟩ := ih htarget
      exact ⟨b', m', .link hc hnode h', h''⟩

/-- A path goes through the entry of its first name, and ends there if that is a regular file. -/
theorem first (h : t.Follows links l (c :: rest) b m) (hc : Ordinary c) :
    ∃ k, t.node (l ++ [c]) = some k ∧ (k = .file → m = l ++ [c]) := by
  cases h with
  | same hsame => exact absurd hsame (not_or.mpr ⟨hc.1, hc.2.1⟩)
  | up => exact absurd rfl hc.2.2
  | file _ hnode => exact ⟨_, hnode, fun _ => rfl⟩
  | directory _ hnode _ => exact ⟨_, hnode, nofun⟩
  | link _ hnode _ => exact ⟨_, hnode, nofun⟩

end Follows

theorem start_append (hp : p ≠ []) (hp' : p ≠ [[]]) (q : Path) (l : Location) :
    start l (p ++ q) = start l p := by
  rcases p with _ | ⟨_ | ⟨x, c⟩, _ | ⟨c', p⟩⟩
  · exact absurd rfl hp
  · exact absurd rfl hp'
  · rfl
  · rfl
  · rfl

/-- Slashes behind a path lead nowhere else. -/
theorem Follows.slashes (h : t.Follows links l p b m) (hm : t.node m ≠ some .file)
    (hq : ∀ c ∈ q, c = []) : t.Follows links l (p ++ q) b m := by
  refine h.append hm ?_
  induction q with
  | nil => exact .done
  | cons c q ih =>
    obtain ⟨hc, hq⟩ := List.forall_mem_cons.mp hq
    exact .same (.inl hc) (ih hq)

/-- An entry that a path names and that is no link is what the path leads to. -/
theorem follows_of_locate {cwd : Location} (h : t.locate cwd p = some m)
    (hm : t.node m = some .directory)
    (hfile : ∀ l n, t.node (l ++ [n]) ≠ none → t.node l ≠ some .file) :
    ∃ b, t.Follows maxLinks (start cwd p) p b m := by
  unfold locate at h
  split at h
  · cases h
  · rename_i n front hp
    have hn : n ≠ [] := by
      have h := List.head?_dropWhile_not (fun c : Name => decide (c = [])) p.reverse
      rw [hp] at h
      exact of_decide_eq_false h
    split at h
    · cases h
    · rename_i hdots
      obtain ⟨hdot, hdotdot⟩ := not_or.mp hdots
      obtain ⟨⟨b, l⟩, hfront, rfl⟩ := Option.map_eq_some_iff.mp h
      have hsplit : p = (front.reverse ++ [n]) ++ (p.reverse.takeWhile (· = [])).reverse := by
        have h := congrArg List.reverse (List.takeWhile_append_dropWhile (p := (· = []))
          (l := p.reverse))
        rw [hp, List.reverse_append, List.reverse_cons, List.reverse_reverse] at h
        exact h.symm
      have hempty : ∀ c ∈ (p.reverse.takeWhile (· = [])).reverse, c = [] := by
        intro c hc
        simpa using List.mem_takeWhile_imp (List.mem_reverse.mp hc)
      have hl := hfile l n (by rw [hm]; exact Option.some_ne_none _)
      have hfollows : t.Follows maxLinks (start cwd p) (front.reverse ++ [n]) b (l ++ [n]) :=
        (follow_eq_some.mp hfront).append hl (.directory ⟨hn, hdot, hdotdot⟩ hm .done)
      refine ⟨b, ?_⟩
      have hslashes := hfollows.slashes (by rw [hm]; decide) hempty
      rwa [← hsplit] at hslashes

section Paths

variable {cwd : Location} {fnmatch : Name → Name → Bool} {n : Name} {k : Kind} {found : List Path}

theorem stat_eq_some (hp : p ≠ []) (hp' : p ≠ [[]]) : t.stat cwd p = some k ↔
    ∃ b m, t.Follows maxLinks (start cwd p) p b m ∧ t.node m = some k := by
  rw [stat, if_neg (not_or.mpr ⟨hp, hp'⟩), Option.bind_eq_some_iff]
  constructor
  · rintro ⟨⟨b, m⟩, hfollow, hk⟩
    exact ⟨b, m, follow_eq_some.mp hfollow, hk⟩
  · rintro ⟨b, m, hfollows, hk⟩
    exact ⟨(b, m), hfollows.follow_eq, hk⟩

/-- The entry that a path names whose last part is a name. -/
theorem locate_append_singleton (hp : p ≠ []) (hp' : p ≠ [[]]) (hn : Ordinary n) :
    t.locate cwd (p ++ [n]) = some m ↔
      ∃ b l, t.Follows maxLinks (start cwd p) p b l ∧ m = l ++ [n] := by
  have hlast : (p ++ [n]).reverse.dropWhile (· = []) = n :: p.reverse := by
    rw [List.reverse_append, List.reverse_singleton, List.singleton_append,
      List.dropWhile_cons_of_neg (by simpa using hn.1)]
  rw [locate, hlast]
  dsimp only
  rw [if_neg (not_or.mpr hn.2), List.reverse_reverse, start_append hp hp', Option.map_eq_some_iff]
  constructor
  · rintro ⟨⟨b, l⟩, hfollow, rfl⟩
    exact ⟨b, l, follow_eq_some.mp hfollow, rfl⟩
  · rintro ⟨b, l, hfollows, rfl⟩
    exact ⟨(b, l), hfollows.follow_eq, rfl⟩

theorem locate_ne_nil (h : t.locate cwd p = some m) : m ≠ [] := by
  unfold locate at h
  split at h
  · cases h
  · split at h
    · cases h
    · obtain ⟨⟨b, l⟩, -, rfl⟩ := Option.map_eq_some_iff.mp h
      exact List.append_ne_nil_of_right_ne_nil _ (List.cons_ne_nil _ _)

theorem locate_mono (h : t.locate cwd p = some m) (hsub : t.Sub u) : u.locate cwd p = some m := by
  unfold locate at h ⊢
  split at h
  · cases h
  · split at h
    · cases h
    · rename_i hdots
      obtain ⟨⟨b, l⟩, hfollow, rfl⟩ := Option.map_eq_some_iff.mp h
      rw [if_neg hdots, ((follow_eq_some.mp hfollow).mono hsub).follow_eq]
      rfl

theorem readdir_eq (hp : p ≠ []) (hp' : p ≠ [[]]) (h : t.Follows maxLinks (start cwd p) p b l)
    (hl : t.node l = some .directory) : t.readdir cwd p = dot :: dotdot :: t.children l := by
  have hslash := h.slashes (q := [[]]) (by rw [hl]; decide) (by simp)
  rw [readdir, start_append hp hp', hslash.follow_eq]
  exact if_pos hl

theorem unescape_eq {c : Name} (h : 92 ∉ c) : unescape c = c := by
  induction c with
  | nil => rfl
  | cons x c ih =>
    obtain ⟨hx, hc⟩ := not_or.mp fun h' => h (List.mem_cons.mpr h')
    rw [unescape, ih hc]
    rintro y rest rfl
    exact absurd rfl hx

/-- Parts that stand for themselves are matched by themselves. -/
theorem expand_append (hp : ∀ c ∈ p, Plain c) (q : Path) (r : Path) :
    t.expand fnmatch cwd (p ++ q) [r] = t.expand fnmatch cwd q [r ++ p] := by
  induction p generalizing r with
  | nil => rw [List.nil_append, List.append_nil]
  | cons c p ih =>
    obtain ⟨hc, hp⟩ := List.forall_mem_cons.mp hp
    rw [List.cons_append, expand, List.flatMap_singleton, if_neg (by simp [hc.1]),
      unescape_eq hc.2, ih hp, List.append_assoc, List.singleton_append]

/-- The other parts only add to them. -/
theorem mem_expand (hfound : ∀ q ∈ found, p <+: q) {q : Path} (r : Path)
    (hq : q ∈ t.expand fnmatch cwd r found) : p <+: q := by
  induction r generalizing found with
  | nil => exact hfound q hq
  | cons c r ih =>
    refine ih (fun q' hq' => ?_) hq
    obtain ⟨r, hr, hq'⟩ := List.mem_flatMap.mp hq'
    split at hq'
    · obtain ⟨n, -, rfl⟩ := List.mem_map.mp hq'
      exact (hfound r hr).trans (List.prefix_append _ _)
    · rw [List.mem_singleton.mp hq']
      exact (hfound r hr).trans (List.prefix_append _ _)

/-- A path without pattern characters matches the visible names of its directory. -/
theorem glob_eq (hplain : ∀ c ∈ p, Plain c) (hp : p ≠ []) (hp' : p ≠ [[]])
    (h : t.Follows maxLinks (start cwd p) p b l) (hl : t.node l = some .directory) :
    t.glob fnmatch cwd p = ((t.children l).filter visible).map fun n => p ++ [n] := by
  have hexpand : t.expand fnmatch cwd p [[]] = [p] := by
    calc t.expand fnmatch cwd p [[]]
      _ = t.expand fnmatch cwd (p ++ []) [[]] := by rw [List.append_nil]
      _ = [p] := expand_append hplain [] []
  rw [glob, hexpand, List.flatMap_singleton, readdir_eq hp hp' h hl]
  rfl

theorem mem_glob (hplain : ∀ c ∈ p, Plain c) {q : Path}
    (hq : q ∈ t.glob fnmatch cwd (p ++ rest)) :
    ∃ r n l, q = p ++ r ++ [n] ∧ visible n = true ∧ n ∈ t.children l := by
  obtain ⟨d, hd, hq⟩ := List.mem_flatMap.mp hq
  obtain ⟨n, hn, rfl⟩ := List.mem_map.mp hq
  rw [expand_append hplain, List.nil_append] at hd
  obtain ⟨r, rfl⟩ : p <+: d := mem_expand (by simp) rest hd
  obtain ⟨hn, hvisible⟩ := List.mem_filter.mp hn
  unfold readdir at hn
  split at hn
  · cases hn
  · split at hn
    · rcases List.mem_cons.mp hn with rfl | hn
      · cases hvisible
      · rcases List.mem_cons.mp hn with rfl | hn
        · cases hvisible
        · exact ⟨r, n, _, rfl, hvisible, hn⟩
    · cases hn

end Paths

/-- The places at and below one. -/
def under (l : Location) : Set Location := {m | l <+: m}

open Classical in
/-- The tree without the entries at some places. -/
noncomputable def without (t : Tree) (gone : Set Location) : Tree :=
  { t with node := fun l => if l ∈ gone then none else t.node l }

theorem without_node_of_mem {gone : Set Location} (h : l ∈ gone) :
    (t.without gone).node l = none := if_pos h

theorem without_node_of_notMem {gone : Set Location} (h : l ∉ gone) :
    (t.without gone).node l = t.node l := if_neg h

theorem without_node_eq_some {gone : Set Location} {k : Kind} :
    (t.without gone).node l = some k ↔ l ∉ gone ∧ t.node l = some k := by
  by_cases hl : l ∈ gone
  · rw [without_node_of_mem hl]
    exact ⟨nofun, fun h => absurd hl h.1⟩
  · rw [without_node_of_notMem hl]
    exact ⟨fun h => ⟨hl, h⟩, And.right⟩

theorem without_sub (t : Tree) (gone : Set Location) : (t.without gone).Sub t :=
  fun _ _ h => (without_node_eq_some.mp h).2

theorem Sub.trans {v : Tree} (h : t.Sub u) (h' : u.Sub v) : t.Sub v :=
  fun l k hl => h' l k (h l k hl)

theorem without_without (t : Tree) (gone gone' : Set Location) :
    (t.without gone).without gone' = t.without {l | l ∈ gone ∨ l ∈ gone'} := by
  refine Tree.ext (funext fun l => ?_) rfl
  by_cases h' : l ∈ gone'
  · rw [without_node_of_mem h', without_node_of_mem (.inr h')]
  · rw [without_node_of_notMem h']
    by_cases h : l ∈ gone
    · rw [without_node_of_mem h, without_node_of_mem (.inl h)]
    · have hneither : l ∉ {l | l ∈ gone ∨ l ∈ gone'} := fun hl => hl.elim h h'
      rw [without_node_of_notMem h, without_node_of_notMem hneither]

theorem without_congr {gone gone' : Set Location}
    (h : ∀ l, t.node l ≠ none → (l ∈ gone ↔ l ∈ gone')) : t.without gone = t.without gone' := by
  refine Tree.ext (funext fun l => ?_) rfl
  by_cases hl : t.node l = none
  · have hnone : ∀ gone, (t.without gone).node l = none := by
      intro gone
      by_cases hg : l ∈ gone
      · exact without_node_of_mem hg
      · rw [without_node_of_notMem hg, hl]
    rw [hnone, hnone]
  · by_cases hg : l ∈ gone
    · rw [without_node_of_mem hg, without_node_of_mem ((h l hl).mp hg)]
    · rw [without_node_of_notMem hg, without_node_of_notMem fun hg' => hg ((h l hl).mpr hg')]

end Tree

/-- A tree in which every entry is in a directory that lists it. -/
structure FileSystem extends Tree where
  root : node [] = some .directory
  parent : ∀ l n, node (l ++ [n]) ≠ none → node l = some .directory
  listed : ∀ l n, node (l ++ [n]) ≠ none → n ∈ names l
  ordinary : ∀ l n, node (l ++ [n]) ≠ none → Ordinary n
  nodup : ∀ l, (names l).Nodup

namespace FileSystem

open Files.Tree

variable {fs : FileSystem} {l m : Location} {n : Name} {k : Kind} {cwd : Location} {path : Path}

theorem mem_children : n ∈ fs.children l ↔ fs.node (l ++ [n]) ≠ none := by
  rw [children, List.mem_filter, Option.isSome_iff_ne_none]
  exact ⟨And.right, fun h => ⟨fs.listed l n h, h⟩⟩

theorem children_nodup : (fs.children l).Nodup := (fs.nodup l).filter _

/-- All places on the way to an entry are directories. -/
theorem node_of_append {r : Location} (h : fs.node (l ++ r) ≠ none) (hr : r ≠ []) :
    fs.node l = some .directory := by
  induction r generalizing l with
  | nil => exact absurd rfl hr
  | cons n r ih =>
    rw [List.append_cons] at h
    by_cases hr : r = []
    · rw [hr, List.append_nil] at h
      exact fs.parent l n h
    · refine fs.parent l n ?_
      rw [ih h hr]
      exact Option.some_ne_none _

/-- Below a place where nothing is listed there is nothing. -/
theorem node_of_no_children (h : fs.children l = []) {r : Location} (hr : r ≠ []) :
    fs.node (l ++ r) = none := by
  by_contra hnode
  obtain ⟨n, r, rfl⟩ := List.exists_cons_of_ne_nil hr
  rw [List.append_cons] at hnode
  have hn : fs.node (l ++ [n]) ≠ none := by
    by_cases hr : r = []
    · rwa [hr, List.append_nil] at hnode
    · rw [node_of_append hnode hr]
      exact Option.some_ne_none _
  have hmem := mem_children.mpr hn
  rw [h] at hmem
  cases hmem

theorem no_children (h : fs.node l ≠ some .directory) : fs.children l = [] := by
  refine List.eq_nil_iff_forall_not_mem.mpr fun n hn => h ?_
  exact fs.parent l n (mem_children.mp hn)

/-- A path that names a directory leads to it. -/
theorem follows_of_located (h : fs.locate cwd path = some l) (hl : fs.node l = some .directory) :
    ∃ b, fs.Follows maxLinks (start cwd path) path b l := by
  refine follows_of_locate h hl fun m n hn => ?_
  rw [fs.parent m n hn]
  exact nofun

/-- The root directory alone. -/
def bare : FileSystem where
  node l := if l = [] then some .directory else none
  names _ := []
  root := rfl
  parent l n h := absurd (if_neg (List.append_ne_nil_of_right_ne_nil l (List.cons_ne_nil n []))) h
  listed l n h := absurd (if_neg (List.append_ne_nil_of_right_ne_nil l (List.cons_ne_nil n []))) h
  ordinary l n h := absurd (if_neg (List.append_ne_nil_of_right_ne_nil l (List.cons_ne_nil n []))) h
  nodup _ := List.nodup_nil

/-- Add an entry to a directory that has none of its name. -/
def add (fs : FileSystem) (l : Location) (n : Name) (k : Kind) : FileSystem :=
  if h : fs.node l = some .directory ∧ Ordinary n ∧ fs.node (l ++ [n]) = none then
    { node := Function.update fs.node (l ++ [n]) (some k)
      names := Function.update fs.names l (if n ∈ fs.names l then fs.names l else fs.names l ++ [n])
      root := by
        have hne := List.append_ne_nil_of_right_ne_nil l (List.cons_ne_nil n [])
        rw [Function.update_of_ne hne.symm, fs.root]
      parent := by
        intro m n' hn
        have hm : fs.node m = some .directory := by
          by_cases heq : m ++ [n'] = l ++ [n]
          · rw [(List.append_inj' heq rfl).1, h.1]
          · rw [Function.update_of_ne heq] at hn
            exact fs.parent m n' hn
        rw [Function.update_of_ne, hm]
        rintro rfl
        cases h.2.2.symm.trans hm
      listed := by
        intro m n' hn
        by_cases hm : m = l
        · subst hm
          rw [Function.update_self]
          by_cases heq : n' = n
          · subst heq
            split
            · assumption
            · exact List.mem_append_right _ List.mem_cons_self
          · rw [Function.update_of_ne (by simpa using heq)] at hn
            have hlisted := fs.listed m n' hn
            split
            · exact hlisted
            · exact List.mem_append_left _ hlisted
        · rw [Function.update_of_ne hm]
          have hne : m ++ [n'] ≠ l ++ [n] := fun heq => hm (List.append_inj' heq rfl).1
          rw [Function.update_of_ne hne] at hn
          exact fs.listed m n' hn
      ordinary := by
        intro m n' hn
        by_cases heq : m ++ [n'] = l ++ [n]
        · obtain rfl : n' = n := by simpa using (List.append_inj' heq rfl).2
          exact h.2.1
        · rw [Function.update_of_ne heq] at hn
          exact fs.ordinary m n' hn
      nodup := by
        intro m
        by_cases hm : m = l
        · subst hm
          rw [Function.update_self]
          split
          · exact fs.nodup m
          · rename_i hn
            refine List.nodup_append.mpr ⟨fs.nodup m, List.pairwise_singleton _ n, ?_⟩
            rintro n' hn' _ hmem rfl
            exact hn (List.mem_singleton.mp hmem ▸ hn')
        · rw [Function.update_of_ne hm]
          exact fs.nodup m }
  else fs

/-- Remove an entry, unless it is the root or a directory that is not empty. -/
def erase (fs : FileSystem) (l : Location) : FileSystem :=
  if h : l ≠ [] ∧ fs.children l = [] then
    { fs with
      node := Function.update fs.node l none
      root := by rw [Function.update_of_ne h.1.symm, fs.root]
      parent := by
        intro m n hn
        have hne : m ++ [n] ≠ l := by
          rintro rfl
          exact hn (Function.update_self ..)
        rw [Function.update_of_ne hne] at hn
        have hm : m ≠ l := by
          rintro rfl
          exact hn (node_of_no_children h.2 (List.cons_ne_nil _ _))
        rw [Function.update_of_ne hm]
        exact fs.parent m n hn
      listed := by
        intro m n hn
        refine fs.listed m n fun h => hn ?_
        by_cases hne : m ++ [n] = l
        · rw [hne, Function.update_self]
        · rw [Function.update_of_ne hne, h]
      ordinary := by
        intro m n hn
        refine fs.ordinary m n fun h => hn ?_
        by_cases hne : m ++ [n] = l
        · rw [hne, Function.update_self]
        · rw [Function.update_of_ne hne, h] }
  else fs

def unlink (fs : FileSystem) (cwd : Location) (path : Path) : FileSystem :=
  match fs.locate cwd path with
  | none => fs
  | some l => if fs.node l = some .directory then fs else fs.erase l

def rmdir (fs : FileSystem) (cwd : Location) (path : Path) : FileSystem :=
  match fs.locate cwd path with
  | none => fs
  | some l => if fs.node l = some .directory then fs.erase l else fs

theorem erase_node (hl : l ≠ []) (h : fs.children l = []) :
    (fs.erase l).node = Function.update fs.node l none ∧ (fs.erase l).names = fs.names := by
  rw [erase, dif_pos ⟨hl, h⟩]
  exact ⟨rfl, rfl⟩

theorem erase_eq_self (h : ¬ (l ≠ [] ∧ fs.children l = [])) : fs.erase l = fs := dif_neg h

theorem erase_eq (hl : l ≠ []) (h : fs.children l = []) :
    (fs.erase l).toTree = fs.without (under l) := by
  obtain ⟨hnode, hnames⟩ := erase_node hl h
  refine Tree.ext (funext fun m => ?_) hnames
  rw [hnode]
  by_cases hm : m = l
  · rw [hm, Function.update_self, without_node_of_mem (List.prefix_refl l)]
  · rw [Function.update_of_ne hm]
    by_cases hunder : m ∈ under l
    · obtain ⟨r, rfl⟩ := hunder
      rw [without_node_of_mem (List.prefix_append l r)]
      refine node_of_no_children h ?_
      rintro rfl
      exact hm (List.append_nil l)
    · rw [without_node_of_notMem hunder]

theorem erase_of_ne (h : m ≠ l) : (fs.erase l).node m = fs.node m := by
  by_cases hl : l ≠ [] ∧ fs.children l = []
  · rw [(erase_node hl.1 hl.2).1, Function.update_of_ne h]
  · rw [erase_eq_self hl]

theorem erase_sub : (fs.erase l).Sub fs.toTree := by
  by_cases hl : l ≠ [] ∧ fs.children l = []
  · rw [erase_eq hl.1 hl.2]
    exact without_sub _ _
  · rw [erase_eq_self hl]
    exact fun _ _ h => h

/-- What is not the entry that the path names stays. -/
theorem unlink_of_ne (h : ∀ l, fs.locate cwd path = some l → fs.node l ≠ some .directory → m ≠ l) :
    (fs.unlink cwd path).node m = fs.node m := by
  unfold unlink
  split
  · rfl
  · rename_i l hl
    split
    · rfl
    · rename_i hnode
      exact erase_of_ne (h l hl hnode)

/-- And what is not an empty directory that the path names. -/
theorem rmdir_of_ne (h : ∀ l, fs.locate cwd path = some l → fs.node l = some .directory →
    fs.children l = [] → m ≠ l) : (fs.rmdir cwd path).node m = fs.node m := by
  unfold rmdir
  split
  · rfl
  · rename_i l hl
    split
    · rename_i hnode
      by_cases hchildren : fs.children l = []
      · exact erase_of_ne (h l hl hnode hchildren)
      · rw [erase_eq_self fun hempty => hchildren hempty.2]
    · rfl

theorem unlink_sub : (fs.unlink cwd path).Sub fs.toTree := by
  unfold unlink
  split
  · exact fun _ _ h => h
  · split
    · exact fun _ _ h => h
    · exact erase_sub

theorem rmdir_sub : (fs.rmdir cwd path).Sub fs.toTree := by
  unfold rmdir
  split
  · exact fun _ _ h => h
  · split
    · exact erase_sub
    · exact fun _ _ h => h

end FileSystem

end Redx.Library.Files
