import Picomimi.VfsResolve
/-!
# VfsDots — `.`, `..` and slashes in a path

`..` goes to `d_parent`, but not from the root of the name space.  The root of a mount is its own `d_parent`, so that `..` from
it stays in the mount; and a link at the end of a path is followed, but not one before `..`.  Where neither is in the way the
laws of the tree hold, and nowhere else (`dots_iff`).
-/
namespace Pico
namespace Vfs

open Lib

/-- `p/..`. -/
def dotDot (p : List Char) : List Char := p ++ ['/', '.', '.']

/-- **The laws of the tree** for a path `p` that leads to the directory `d`, and a name `c`. -/
structure DotLaws (s : Fs) (follow : Bool) (p : List Char) (c : Name) (d : Nat) : Prop where
  back : Resolves s follow (dotDot (p ++ '/' :: c)) d
  dot : Resolves s follow (p ++ ['/', '.']) d
  slashes : ∀ q r, p = q ++ '/' :: r → kernPath s (q ++ '/' :: '/' :: r) ⟨false, follow⟩ = kernPath s p ⟨false, follow⟩
  root : d = s.rootDentry → Resolves s follow (dotDot p) d
  mount : ∀ m ∈ s.mountTable, m.2 = d → Resolves s follow (dotDot p) (s.parent m.1)

/-- **When `..` leads back**: `d` is not the root of a mount; the entry `c` of the dentry `e` the components of `p` lead to,
which is `d` where `p` ends in no link, has no mount on it; and a link to the root of the name space is in a directory that
leads there too. -/
structure DotsBack (s : Fs) (follow : Bool) (c : Name) (e d : Nat) : Prop where
  noRoot : ∀ m ∈ s.mountTable, m.2 ≠ d
  entry : ∃ ch, dLookup s e c = some ch ∧ ∀ m ∈ s.mountTable, m.1 ≠ ch
  link : d = s.rootDentry → e = d ∨ reach s follow (s.parent e) = some d

variable {s : Fs} {c : Name} {d e ch x : Nat} {f : Bool} {p : List Char} {cs : List Name}

theorem edge_dot (s : Fs) (e : Nat) : edge s e ['.'] = some e := by rw [edge, if_pos rfl]

theorem edge_dotDot (s : Fs) (e : Nat) : edge s e ['.', '.'] = some (if e = s.rootDentry then e else s.parent e) := by
  rw [edge, if_neg (by decide), if_pos rfl]

theorem components_dotDot (p : List Char) : components (dotDot p) = components p ++ [['.', '.']] := components_append p ['.', '.']

/-- A dentry no mount is on is not crossed. -/
theorem crossMount_of_not (h : ∀ m ∈ s.mountTable, m.1 ≠ ch) : crossMount s ch = ch := by
  refine (crossMount_cases s ch).resolve_right ?_
  rintro ⟨m, hm, heq, -⟩
  exact h m hm heq

theorem crossMount_of_mem {m : Nat × Nat} (hm : m ∈ s.mountTable) (h : m.1 = ch) : ∃ m' ∈ s.mountTable, crossMount s ch = m'.2 := by
  unfold crossMount
  cases hf : s.mountTable.find? fun m => m.1 = ch with
  | none =>
    have hno := List.find?_eq_none.1 hf m hm
    exact absurd (decide_eq_true h) hno
  | some m' => exact ⟨m', List.mem_of_find?_eq_some hf, rfl⟩

/-- `..` from where a path leads. -/
theorem resolve_dotDot (he : resolve s (components p) = .ok e) :
    resolve s (components (dotDot p)) = .ok (if e = s.rootDentry then e else s.parent e) := by
  rw [components_dotDot]
  exact walk_snoc_some he (edge_dotDot s e)

/-- The entry `c`, and `..` from it. -/
theorem resolve_back (hs : Tree s) (he : resolve s (components p) = .ok e) (hc : Proper c) (h0 : c ≠ []) (hsl : '/' ∉ c)
    (hlook : dLookup s e c = some ch) : resolve s (components (dotDot (p ++ '/' :: c))) =
      .ok (if crossMount s ch = ch then e else crossMount s ch) := by
  have hcs : resolve s (components (p ++ '/' :: c)) = .ok (crossMount s ch) := by
    rw [components_append, components_name hsl h0]
    refine walk_snoc_some he ?_
    rw [edge_of_proper hc, hlook]
    rfl
  obtain ⟨hpar, hne, hlt⟩ := hs.child e ch (dLookup_mem hlook).1
  have hroot : ch ≠ s.rootDentry := by
    rintro rfl
    exact hne (hs.root.2.symm.trans hpar)
  rw [resolve_dotDot hcs]
  rcases crossMount_cases s ch with heq | ⟨m, hm, hm1, heq⟩
  · rw [heq, if_neg hroot, if_pos rfl, hpar]
  · have hlt := (hs.mounted m hm).1
    have hne' : m.2 ≠ ch := by omega
    rw [heq, if_neg (Nat.ne_of_gt (hs.root_lt hm)), if_neg hne', (hs.mount m hm).2.2]

/-- **The laws of the tree hold exactly where no mount and no link is in the way.** -/
theorem dots_iff (hs : Tree s) (he : resolve s (components p) = .ok e) (hd : Resolves s f p d) (hc : Proper c) (h0 : c ≠ [])
    (hsl : '/' ∉ c) : DotLaws s f p c d ↔ DotsBack s f c e d := by
  obtain ⟨e', he', hreach, hpos⟩ := (resolves_iff hs.toWf).1 hd
  rw [he] at he'
  cases he'
  have hmem : ∀ v, v < s.nrDentry → s.parent v ≤ v := hs.parent_le
  constructor
  · intro h
    have hnoRoot : ∀ m ∈ s.mountTable, m.2 ≠ d := by
      rintro m hm rfl
      -- the root of the mount is its own parent, and younger than the mountpoint
      obtain ⟨e', he', hr, -⟩ := (resolves_iff hs.toWf).1 (h.mount m hm rfl)
      have hed := hs.reach_root hm hreach
      subst hed
      rw [resolve_dotDot he, if_neg (Nat.ne_of_gt (hs.root_lt hm)), (hs.mount m hm).2.2] at he'
      cases he'
      rw [reach_of_not (isSymlink_of_isDir (hs.mounted m hm).2)] at hr
      have hle := hmem m.1 (hs.mount m hm).1
      have hlt := (hs.mounted m hm).1
      have heq := Option.some.inj hr
      omega
    refine ⟨hnoRoot, ?_, fun hroot => ?_⟩
    · obtain ⟨e', he', hr, -⟩ := (resolves_iff hs.toWf).1 h.back
      cases hlook : dLookup s e c with
      | none =>
        have hno : resolve s (components (p ++ '/' :: c)) = .error (e, c) := by
          rw [components_append, components_name hsl h0]
          refine walk_snoc_none he ?_
          rw [edge_of_proper hc, hlook]
          rfl
        have herr : resolve s (components (p ++ '/' :: c) ++ [['.', '.']]) = .error (e, c) := walk_append_error _ hno
        rw [components_dotDot, herr] at he'
        cases he'
      | some ch =>
        refine ⟨ch, rfl, fun m hm hm1 => ?_⟩
        obtain ⟨m', hm', hcross⟩ := crossMount_of_mem hm hm1
        have hlt : ch < m'.2 := by
          rcases crossMount_cases s ch with heq | ⟨m'', hm'', heq1, heq⟩
          · have hroot : m'.2 = ch := hcross.symm.trans heq
            exact absurd (hroot ▸ (dLookup_mem hlook).1) (hs.not_child hm' e)
          · have hlt'' := (hs.mounted m'' hm'').1
            omega
        rw [resolve_back hs he hc h0 hsl hlook, hcross, if_neg (Nat.ne_of_gt hlt)] at he'
        cases he'
        rw [reach_of_not (isSymlink_of_isDir (hs.mounted m' hm').2)] at hr
        exact hnoRoot m' hm' (Option.some.inj hr)
    · obtain ⟨e', he', hr, -⟩ := (resolves_iff hs.toWf).1 (h.root hroot)
      rw [resolve_dotDot he] at he'
      by_cases heroot : e = s.rootDentry
      · exact .inl (heroot.trans hroot.symm)
      · rw [if_neg heroot] at he'
        cases he'
        exact .inr hr
  · rintro ⟨hnoRoot, ⟨ch, hlook, hno⟩, hlink⟩
    refine ⟨?_, ?_, fun q r hq => ?_, fun hroot => ?_, fun m hm heq => absurd heq (hnoRoot m hm)⟩
    · refine (resolves_iff hs.toWf).2 ⟨e, ?_, hreach, hpos⟩
      rw [resolve_back hs he hc h0 hsl hlook, if_pos (crossMount_of_not hno)]
    · refine (resolves_iff hs.toWf).2 ⟨e, ?_, hreach, hpos⟩
      rw [components_append]
      exact walk_snoc_some he (edge_dot s e)
    · rw [hq]
      exact kernPath_congr (components_slashes q r) s _
    · refine (resolves_iff hs.toWf).2 ⟨_, resolve_dotDot he, ?_, hpos⟩
      by_cases heroot : e = s.rootDentry
      · rw [if_pos heroot]
        exact hreach
      · rw [if_neg heroot]
        exact (hlink hroot).resolve_left fun hed => heroot (hed.trans hroot)

/-- A directory `d` in the root, and a file system mounted on it. -/
def mountedFs : Fs := (doMount (sysMkdir (rootfs []) ['/', 'd'] 0x1ED).2 ['/', 'd']).2

theorem tree_mountedFs : Tree mountedFs :=
  tree_of_run [.mkdir ['/', 'd'] 0x1ED, .mount ['/', 'd']] ⟨[], rfl⟩ rfl

/-- `/d/..` before the mount. -/
theorem dots_iff_root : DotLaws (sysMkdir (rootfs []) ['/', 'd'] 0x1ED).2 true ['/'] ['d'] 0 := by
  have hs : Tree (sysMkdir (rootfs []) ['/', 'd'] 0x1ED).2 := tree_of_run [.mkdir ['/', 'd'] 0x1ED] ⟨[], rfl⟩ rfl
  refine (dots_iff hs (e := 0) (by decide) ⟨by decide, by decide⟩ (by decide) (by decide) (by decide)).2
    ⟨nofun, ⟨1, by decide, nofun⟩, fun _ => .inl rfl⟩

/-- With the mount `/d/..` is the root of the mount. -/
theorem not_dotLaws_mountedFs : Tree mountedFs ∧ Resolves mountedFs true ['/'] 0 ∧ IsDir mountedFs 0 ∧
    (∃ ch ∈ mountedFs.subdirs 0, mountedFs.name ch = ['d'] ∧ mountedFs.inode ch ≠ none) ∧
    Resolves mountedFs true ['/', 'd', '/', '.', '.'] 2 ∧ ¬DotLaws mountedFs true ['/'] ['d'] 0 := by
  have hback : (kernPath mountedFs (dotDot (['/'] ++ '/' :: ['d'])) ⟨false, true⟩).1 = .ok 2 := by decide
  refine ⟨tree_mountedFs, ⟨by decide, by decide⟩, ⟨0, by decide, by decide⟩, ⟨1, by decide, by decide, by decide⟩,
    ⟨by decide, by decide⟩, fun h => ?_⟩
  have h0 := h.back.1
  rw [hback] at h0
  cases h0

end Vfs
end Pico
