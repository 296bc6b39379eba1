import Picomimi.VfsResolve
/-!
# VfsLink — the target of a link, and the same path resolved

The targets of links are walked by a loop of their own, which looks every component up: it knows no `.` and no `..`, crosses no
mount and copies a component into a buffer.  On targets where that makes no difference the link leads where the target leads
(`link_resolves`); a relative target is refused.
-/
namespace Pico
namespace Vfs

open Lib

/-- The path leads to `d` along at most `k` links. -/
def ResolvesWithin (s : Fs) (k : Nat) (path : List Char) (d : Nat) : Prop :=
  ∃ e, resolve s (components path) = .ok e ∧ linkEnd s k e = some d ∧ s.inode d ≠ none

/-- **A target that both loops walk alike**: plain names that fit the buffer, and no mount on the way. -/
structure PlainTarget (s : Fs) (target : List Char) : Prop where
  proper : ∀ n ∈ components target, Proper n
  fits : ∀ n ∈ components target, n.length ≤ 255
  unmounted : ∀ pre n post v ch, components target = pre ++ n :: post → resolve s pre = .ok v → dLookup s v n = some ch →
    ∀ m ∈ s.mountTable, m.1 ≠ ch

/-- What `i_private` of a symlink holds. -/
def rawTarget (s : Fs) (l : Nat) : Option Name :=
  match (s.inode l).map fun i => (s.inodes i).iPrivate with
  | some (.link target) => some target
  | _ => none

/-- **A link leads where its target leads**: an absolute one from the root, a relative one from the link's own directory. -/
def LeadsToTarget (s : Fs) (path : List Char) (l : Nat) : Prop :=
  ∀ target, rawTarget s l = some target → ∀ d,
    (target.head? = some '/' → Resolves s true target d → Resolves s true path d) ∧
    (target.head? ≠ some '/' → ∀ e, walk (edge s) (s.parent l) (components target) = .ok e → linkEnd s 8 e = some d →
      s.inode d ≠ none → Resolves s true path d)

variable {s : Fs} {target path : List Char} {d e l v k : Nat} {cs : List Name}

theorem linkTarget_of_raw (h : rawTarget s l = some target) :
    linkTarget s l = if target.head? = some '/' then some target else none := by
  unfold rawTarget at h
  unfold linkTarget
  revert h
  cases (s.inode l).map fun i => (s.inodes i).iPrivate with
  | none => exact fun h => by cases h
  | some p =>
    cases p with
    | link t =>
      intro h
      cases h
      rfl
    | _ => exact fun h => by cases h

theorem targetComponents_of_fits (h : ∀ n ∈ components target, n.length ≤ 255) : targetComponents target = components target := by
  have hmap : (components target).map (List.take 255) = (components target).map id :=
    List.map_congr_left fun n hn => List.take_of_length_le (h n hn)
  rw [targetComponents, hmap, List.map_id]

/-- The two loops go the same way. -/
theorem walk_dLookup_eq : ∀ (cs : List Name) {v : Nat}, (∀ n ∈ cs, Proper n) →
    (∀ pre n post w ch, cs = pre ++ n :: post → walk (edge s) v pre = .ok w → dLookup s w n = some ch →
      ∀ m ∈ s.mountTable, m.1 ≠ ch) →
    walk (dLookup s) v cs = walk (edge s) v cs
  | [], _, _, _ => rfl
  | n :: cs, v, hp, hm => by
    have hedge : edge s v n = (dLookup s v n).map (crossMount s) := edge_of_proper (hp n List.mem_cons_self)
    cases hl : dLookup s v n with
    | none =>
      rw [hl] at hedge
      rw [walk_cons_none hl, walk_cons_none hedge]
    | some ch =>
      have hcross : crossMount s ch = ch := by
        refine (crossMount_cases s ch).resolve_right ?_
        rintro ⟨m, hmem, heq, -⟩
        exact hm [] n cs v ch rfl rfl hl m hmem heq
      rw [hl, Option.map_some, hcross] at hedge
      rw [walk_cons_some hl, walk_cons_some hedge]
      refine walk_dLookup_eq cs (fun q hq => hp q (List.mem_cons_of_mem n hq)) fun pre q post w c hcs hw => ?_
      refine hm (n :: pre) q post w c (by rw [hcs]; rfl) ?_
      rw [walk_cons_some hedge]
      exact hw

theorem PlainTarget.walk_eq (h : PlainTarget s target) :
    walk (dLookup s) s.rootDentry (targetComponents target) = resolve s (components target) := by
  rw [targetComponents_of_fits h.fits]
  exact walk_dLookup_eq _ h.proper h.unmounted

/-- More links may be followed. -/
theorem linkEnd_mono : ∀ {k e : Nat}, linkEnd s k e = some d → linkEnd s (k + 1) e = some d
  | 0, e, h => by
    unfold linkEnd at h
    split at h
    · cases h
    · rename_i hl
      cases h
      exact linkEnd_of_not (Bool.eq_false_iff.2 hl) 1
  | k + 1, e, h => by
    by_cases hl : isSymlink s e = true
    · rw [linkEnd_succ hl] at h ⊢
      split at h
      · cases h
      · split at h
        · exact linkEnd_mono h
        · cases h
    · rw [linkEnd_of_not (Bool.eq_false_iff.2 hl)] at h ⊢
      exact h

theorem ResolvesWithin.resolves (hs : Tree s) (h : ResolvesWithin s 7 path d) : Resolves s true path d := by
  obtain ⟨e, he, hl, hpos⟩ := h
  exact (resolves_iff hs.toWf).2 ⟨e, he, linkEnd_mono hl, hpos⟩

/-- **A link with a plain absolute target leads where the target leads** in seven more links, and nowhere else; a link with a
relative target leads nowhere. -/
theorem link_resolves (hs : Tree s) (hp : resolve s (components path) = .ok l) (hl : isSymlink s l = true)
    (ht : rawTarget s l = some target) :
    (target.head? = some '/' → PlainTarget s target → ∀ d,
      (Resolves s true path d ↔ ResolvesWithin s 7 target d) ∧ (Resolves s true path d → Resolves s true target d)) ∧
    (target.head? ≠ some '/' → kernPath s path lookupFollow = (.error (-enoent), s)) := by
  have htarget := linkTarget_of_raw ht
  refine ⟨fun habs hplain d => ?_, fun hrel => ?_⟩
  · have hiff : Resolves s true path d ↔ ResolvesWithin s 7 target d := by
      rw [if_pos habs] at htarget
      have hreach : reach s true l = (resolve s (components target)).toOption.bind (linkEnd s 7) := by
        show linkEnd s 8 l = _
        rw [linkEnd_succ hl, htarget]
        dsimp only
        rw [hplain.walk_eq]
        cases resolve s (components target) <;> rfl
      rw [resolves_iff hs.toWf, hp, ResolvesWithin]
      constructor
      · rintro ⟨e, he, hr, hpos⟩
        cases he
        rw [hreach] at hr
        cases htgt : resolve s (components target) with
        | ok e' =>
          rw [htgt] at hr
          exact ⟨e', rfl, hr, hpos⟩
        | error q =>
          rw [htgt] at hr
          cases hr
      · rintro ⟨e, he, hr, hpos⟩
        refine ⟨l, rfl, ?_, hpos⟩
        rw [hreach, he]
        exact hr
    exact ⟨hiff, fun h => (hiff.1 h).resolves hs⟩
  · rw [if_neg hrel] at htarget
    have hwalk : walkPath lookupFollow.parent s s.rootDentry (components path) = (.ok l, s) := by
      have h := walkPath_eq false s (components path) s.rootDentry
      rw [show walk (edge s) s.rootDentry (walked false (components path)) = .ok l from hp] at h
      exact h
    rw [kernPath, hwalk]
    show followLinks 8 s l = _
    rw [followLinks_succ hl, htarget]

/-- A file `/d/f`, a link `/d/l` to `f`, a link `/m` to `/d/f`, and a link `/n` to `/d/../d/f`. -/
def linkFs : Fs :=
  [Call.mkdir ['/', 'd'] 0x1ED, .mknod ['/', 'd', '/', 'f'] 0x81A4 0, .symlink ['f'] ['/', 'd', '/', 'l'],
    .symlink ['/', 'd', '/', 'f'] ['/', 'm'], .symlink ['/', 'd', '/', '.', '.', '/', 'd', '/', 'f'] ['/', 'n']].foldl Call.run
    (rootfs [])

theorem tree_linkFs : Tree linkFs :=
  tree_of_run [.mkdir ['/', 'd'] 0x1ED, .mknod ['/', 'd', '/', 'f'] 0x81A4 0, .symlink ['f'] ['/', 'd', '/', 'l'],
    .symlink ['/', 'd', '/', 'f'] ['/', 'm'], .symlink ['/', 'd', '/', '.', '.', '/', 'd', '/', 'f'] ['/', 'n']] ⟨[], rfl⟩ rfl

/-- The link `/m`. -/
theorem link_resolves_linkFs : Resolves linkFs true ['/', 'm'] 2 := by
  have hplain : PlainTarget linkFs ['/', 'd', '/', 'f'] :=
    ⟨by decide +kernel, by decide +kernel, fun _ _ _ _ _ _ _ _ m hm => by cases hm⟩
  have hp : resolve linkFs (components ['/', 'm']) = .ok 4 := by decide +kernel
  have h := (link_resolves tree_linkFs hp (by decide +kernel) (by decide +kernel)).1 rfl hplain 2
  exact h.1.2 ⟨2, by decide +kernel, by decide +kernel, by decide +kernel⟩

/-- The links `/d/l` and `/n` lead nowhere, though `f` in `/d` and `/d/../d/f` are there. -/
theorem not_leadsToTarget_linkFs : Tree linkFs ∧ resolve linkFs (components ['/', 'd', '/', 'l']) = .ok 3 ∧
    resolve linkFs (components ['/', 'n']) = .ok 5 ∧ isSymlink linkFs 3 = true ∧ isSymlink linkFs 5 = true ∧
    ¬LeadsToTarget linkFs ['/', 'd', '/', 'l'] 3 ∧ ¬LeadsToTarget linkFs ['/', 'n'] 5 := by
  have hl : (kernPath linkFs ['/', 'd', '/', 'l'] ⟨false, true⟩).1 = .error (-enoent) := by decide +kernel
  have hn : (kernPath linkFs ['/', 'n'] ⟨false, true⟩).1 = .error (-enoent) := by decide +kernel
  refine ⟨tree_linkFs, by decide +kernel, by decide +kernel, by decide +kernel, by decide +kernel, fun h => ?_, fun h => ?_⟩
  · have h1 := ((h ['f'] (by decide +kernel) 2).2 (by decide) 2 (by decide +kernel) (by decide +kernel) (by decide +kernel)).1
    rw [hl] at h1
    cases h1
  · have hres : Resolves linkFs true ['/', 'd', '/', '.', '.', '/', 'd', '/', 'f'] 2 := ⟨by decide +kernel, by decide +kernel⟩
    have h1 := ((h _ (by decide +kernel) 2).1 rfl hres).1
    rw [hn] at h1
    cases h1

end Vfs
end Pico
