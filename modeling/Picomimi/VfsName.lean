import Mathlib.Algebra.GroupWithZero.Nat
import Mathlib.Data.List.Induction
import Picomimi.VfsDots
import Picomimi.VfsAt
/-!
# VfsName — the path of a dentry leads back to it

`dentry_path_raw` writes the names from a dentry up to the first that is its own parent: the root, or the root of a mount.  The
text leads back exactly where the look-ups of those names from the root do, past no mountpoint (`names_iff`); `getcwd` and the
`*at` calls write the same text.
-/
namespace Pico
namespace Vfs

open Lib

variable {s t : Fs} {c d e i k r u v w : Nat} {n : Name} {ns cs : List Name} {f : Bool} {p bp path : List Char} {l : List Nat}

/-! ## What the text should do -/

/-- **The path of the dentry leads back to it.** -/
def PathBack (s : Fs) (d : Nat) : Prop := ∃ bp, dentryPathRaw s d pathMax = some bp ∧ Resolves s false bp d

/-- **What `getcwd` writes after `chdir(p)`**, to a buffer that holds every answer, leads where `p` led. -/
def CwdBack (s : Fs) (p : List Char) : Prop :=
  ∀ d t, sysChdir s p = (some (.ok d), t) → ∀ size, pathMax ≤ size → ∃ path, sysGetcwd t (some d) size = .ok path ∧
    ∀ f, Resolves t f path d

/-- `kern_path` from the dentry `base` on. -/
def kernPathFrom (s : Fs) (base : Nat) (path : List Char) (flags : LookupFlags) : Except Int Nat × Fs :=
  match walkPath flags.parent s base (components path) with
  | (.error e, s) => (.error e, s)
  | (.ok d, s) => if flags.follow then followLinks 8 s d else (.ok d, s)

/-- The state after the two allocations of an `*at` call. -/
def afterAt (s : Fs) : Fs := withMem s s.kmalloc.tail.tail

/-- **An `*at` call acts on what its path leads to from its directory.** -/
structure AtSame (s : Fs) (base : Nat) : Prop where
  resolved : ∀ fget dirfd r flags, dirFile fget dirfd = some base → isPlain dirfd r = false →
    (flags.parent = true → components r ≠ []) → atResolve s fget dirfd r flags = kernPathFrom (afterAt s) base r flags
  opened : ∀ fget dirfd r flags mode, dirFile fget dirfd = some base → isPlain dirfd r = false → flags &&& oCreat = 0 →
    sysOpenat s fget dirfd r flags mode = match kernPathFrom (afterAt s) base r lookupFollow with
      | (.error e, s) => (.error e, s)
      | (.ok d, s) => openDentry s d flags

/-- **A dentry that look-ups of names reach from the root**, no file system mounted on the way. -/
inductive Named (s : Fs) : List Name → Nat → Prop
  | root : Named s [] s.rootDentry
  | entry {ns : List Name} {v : Nat} (n : Name) (d : Nat) (h : Named s ns v) (hn : Proper n) (h0 : n ≠ []) (hsl : '/' ∉ n)
      (hl : dLookup s v n = some d) (hm : ∀ m ∈ s.mountTable, m.1 ≠ d) : Named s (ns ++ [n]) d

/-- The length of the names, each with its slash. -/
def textLength (ns : List Name) : Nat := (ns.map fun n => n.length + 1).sum

/-- **The dentry has a path**, of fewer than `PATH_MAX` characters. -/
def HasPath (s : Fs) (d : Nat) : Prop := ∃ ns, Named s ns d ∧ textLength ns < pathMax

/-! ## The loop over the parents -/

/-- The dentry `r` is the first above `d` that is its own parent, and `ns` are the names below it. -/
inductive Above (s : Fs) (r : Nat) : List Name → Nat → Prop
  | top (h : s.parent r = r) : Above s r [] r
  | under {ns : List Name} {d : Nat} (hne : s.parent d ≠ d) (h : Above s r ns (s.parent d)) : Above s r (ns ++ [s.name d]) d

def pathText (ns : List Name) : List Char := ns.flatMap fun n => '/' :: n

theorem Tree.exists_above (hs : Tree s) : ∀ {d : Nat}, d < s.nrDentry → ∃ r ns, Above s r ns d := by
  intro d
  induction d using Nat.strong_induction_on with
  | _ d ih =>
    intro hd
    by_cases hp : s.parent d = d
    · exact ⟨d, [], .top hp⟩
    · have hlt : s.parent d < d := Nat.lt_of_le_of_ne (hs.parent_le d hd) hp
      obtain ⟨r, ns, h⟩ := ih _ hlt (Nat.lt_trans hlt hd)
      exact ⟨r, ns ++ [s.name d], .under hp h⟩

theorem Above.length_le (hs : Tree s) (h : Above s r ns d) : d < s.nrDentry → ns.length ≤ d := by
  induction h with
  | top => exact fun _ => Nat.zero_le _
  | @under ns d hne _ ih =>
    intro hd
    have hlt : s.parent d < d := Nat.lt_of_le_of_ne (hs.parent_le d hd) hne
    have hlen := ih (Nat.lt_trans hlt hd)
    rw [List.length_append, List.length_singleton]
    omega

theorem textLength_snoc (ns : List Name) (n : Name) : textLength (ns ++ [n]) = textLength ns + (n.length + 1) := by
  simp [textLength]

theorem pathText_snoc (ns : List Name) (n : Name) : pathText (ns ++ [n]) = pathText ns ++ '/' :: n := by
  simp [pathText]

theorem length_pathText : (pathText ns).length = textLength ns := by
  simp [pathText, textLength, List.length_flatMap]

/-- **The loop writes the names out**, if they fit. -/
theorem Above.pathLoop_eq (h : Above s r ns d) : ∀ {fuel room : Nat} (text : List Char), ns.length < fuel →
    pathLoop s fuel d room text = if textLength ns ≤ room then some (pathText ns ++ text) else none := by
  induction h with
  | top h =>
    intro fuel room text hf
    obtain ⟨fuel, rfl⟩ := Nat.exists_eq_succ_of_ne_zero (Nat.ne_of_gt hf)
    rw [pathLoop, if_pos h.symm]
    exact (if_pos (Nat.zero_le _)).symm
  | @under ns d hne _ ih =>
    intro fuel room text hf
    rw [List.length_append, List.length_singleton] at hf
    obtain ⟨fuel, rfl⟩ := Nat.exists_eq_succ_of_ne_zero (Nat.ne_of_gt (Nat.lt_of_le_of_lt (Nat.zero_le _) hf))
    rw [pathLoop, if_neg (Ne.symm hne), textLength_snoc, pathText_snoc]
    by_cases hroom : room < (s.name d).length + 1
    · rw [if_pos hroom, if_neg (by omega)]
    · rw [if_neg hroom, ih _ (by omega)]
      have hiff : textLength ns ≤ room - (s.name d).length - 1 ↔ textLength ns + ((s.name d).length + 1) ≤ room := by omega
      simp only [hiff, List.append_assoc, List.cons_append]

/-- The text for a chain of names: a slash where there is none. -/
def rootedText (ns : List Name) : List Char := if ns = [] then ['/'] else pathText ns

theorem pathText_ne_nil (h : ns ≠ []) : pathText ns ≠ [] := by
  cases ns with
  | nil => exact absurd rfl h
  | cons n ns => exact List.cons_ne_nil _ _

theorem Above.dentryPathRaw_eq (h : Above s r ns d) (hlen : ns.length < s.nrDentry) :
    dentryPathRaw s d pathMax = if textLength ns < pathMax then some (rootedText ns) else none := by
  unfold dentryPathRaw
  rw [if_neg (by decide), h.pathLoop_eq [] hlen, List.append_nil]
  have hiff : textLength ns ≤ pathMax - 1 ↔ textLength ns < pathMax := by
    unfold pathMax
    omega
  simp only [hiff]
  by_cases hfit : textLength ns < pathMax
  · rw [if_pos hfit, if_pos hfit, rootedText]
    by_cases hns : ns = []
    · subst hns
      rfl
    · rw [if_neg hns]
      cases htext : pathText ns with
      | nil => exact absurd htext (pathText_ne_nil hns)
      | cons c l => rfl
  · rw [if_neg hfit, if_neg hfit]

theorem Above.sysGetcwd_eq (h : Above s r ns d) (hlen : ns.length < s.nrDentry) {size : Nat} (hsize : pathMax ≤ size) :
    sysGetcwd s (some d) size = if textLength ns < pathMax then .ok (rootedText ns) else .error (-erange) := by
  unfold sysGetcwd
  have h0 : size ≠ 0 := by
    unfold pathMax at hsize
    omega
  rw [if_neg h0]
  dsimp only
  rw [h.pathLoop_eq [] hlen, List.append_nil]
  have hiff : textLength ns ≤ 4095 ↔ textLength ns < pathMax := by
    unfold pathMax
    omega
  simp only [hiff]
  by_cases hfit : textLength ns < pathMax
  · rw [if_pos hfit, if_pos hfit]
    dsimp only
    have htext : (if pathText ns = [] then ['/'] else pathText ns) = rootedText ns := by
      unfold rootedText
      by_cases hns : ns = []
      · subst hns
        rfl
      · rw [if_neg hns, if_neg (pathText_ne_nil hns)]
    have hshort : ¬(rootedText ns).length + 1 > size := by
      unfold rootedText
      split
      · unfold pathMax at hsize
        exact fun h => absurd h (by simp; omega)
      · rw [length_pathText]
        omega
    rw [htext, if_neg hshort]
  · rw [if_neg hfit, if_neg hfit]

/-! ## From the path to the dentry -/

theorem slash_not_mem_components : ∀ (k : Nat) {path : List Char}, path.length ≤ k → ∀ n ∈ components path, '/' ∉ n := by
  intro k
  induction k with
  | zero =>
    intro path hk n hn
    rw [List.eq_nil_of_length_eq_zero (Nat.le_zero.1 hk)] at hn
    cases hn
  | succ k ih =>
    intro path hk n hn
    rcases path_cases path with ⟨hnot, -, -⟩ | ⟨hb, hpath⟩
    · rw [components_of_not_mem hnot] at hn
      split at hn
      · cases hn
      · rw [List.mem_singleton.1 hn]
        exact hnot
    · rw [components_eq, List.mem_append] at hn
      rcases hn with hn | hn
      · refine ih ?_ n hn
        have hlen := congrArg List.length hpath
        rw [List.length_append, List.length_cons] at hlen
        omega
      · split at hn
        · cases hn
        · rw [List.mem_singleton.1 hn]
          exact hb

theorem components_pathText : ∀ {ns : List Name}, (∀ n ∈ ns, n ≠ [] ∧ '/' ∉ n) → components (pathText ns) = ns
  | [], _ => rfl
  | n :: ns, h => by
    have hns : pathText (n :: ns) = '/' :: (n ++ pathText ns) := rfl
    obtain ⟨h0, hsl⟩ := h n List.mem_cons_self
    have ih := components_pathText fun m hm => h m (List.mem_cons_of_mem n hm)
    rw [hns, components_slash]
    cases ns with
    | nil => exact (congrArg components (List.append_nil n)).trans (components_name hsl h0)
    | cons m ns =>
      have hm : pathText (m :: ns) = '/' :: (m ++ pathText ns) := rfl
      rw [hm, components_slash] at ih
      rw [hm, components_append, components_name hsl h0, ih]
      rfl

theorem components_rootedText (h : ∀ n ∈ ns, n ≠ [] ∧ '/' ∉ n) : components (rootedText ns) = ns := by
  unfold rootedText
  split
  · rename_i hns
    rw [hns]
    rfl
  · exact components_pathText h

theorem Named.mem (h : Named s ns d) : ∀ n ∈ ns, n ≠ [] ∧ '/' ∉ n := by
  induction h with
  | root => exact nofun
  | entry n d _ _ h0 hsl _ _ ih =>
    intro m hm
    rcases List.mem_append.1 hm with hm | hm
    · exact ih m hm
    · rw [List.mem_singleton.1 hm]
      exact ⟨h0, hsl⟩

theorem Named.resolve_eq (h : Named s ns d) : resolve s ns = .ok d := by
  induction h with
  | root => rfl
  | entry n d _ hn _ _ hl hm ih =>
    refine walk_snoc_some ih ?_
    rw [edge_of_proper hn, hl, Option.map_some, crossMount_of_not hm]

theorem Named.above (hs : Wf s) (h : Named s ns d) : Above s s.rootDentry ns d := by
  induction h with
  | root => exact .top hs.root.2
  | entry n d _ _ _ _ hl _ ih =>
    obtain ⟨hmem, rfl⟩ := dLookup_mem hl
    obtain ⟨hpar, hne, -⟩ := hs.child _ d hmem
    rw [← hpar] at ih
    refine .under (fun hself => hne ?_) ih
    exact hself.symm.trans hpar

/-- **Where the names lead from the root, their text does.** -/
theorem Named.resolves (hs : Wf s) (h : Named s ns d) (hpos : s.inode d ≠ none) : Resolves s false (rootedText ns) d := by
  refine (resolves_iff hs).2 ⟨d, ?_, rfl, hpos⟩
  rw [components_rootedText h.mem]
  exact h.resolve_eq

/-! ## From the dentry to the path -/

/-- `w` is `v` or below it. -/
def Under (s : Fs) (v w : Nat) : Prop := Relation.ReflTransGen (fun a b => s.parent a = b) w v

theorem Under.child (h : Under s v (s.parent u)) : Under s v u := Relation.ReflTransGen.head rfl h

/-- A dentry that is its own parent is below no other. -/
theorem Under.of_top (h : Under s v w) (hw : s.parent w = w) : w = v := by
  induction h using Relation.ReflTransGen.head_induction_on with
  | refl => rfl
  | head hac _ ih =>
    obtain rfl := hw.symm.trans hac
    exact ih hw

/-- **What an edge leads to**: where it starts, its parent, or an entry of it or what is mounted there. -/
theorem edge_cases (h : edge s u n = some e) :
    e = u ∨ e = s.parent u ∨ Proper n ∧ ∃ c, dLookup s u n = some c ∧ e = crossMount s c := by
  by_cases h1 : n = ['.']
  · rw [edge, if_pos h1] at h
    exact .inl (Option.some.inj h).symm
  · by_cases h2 : n = ['.', '.']
    · rw [edge, if_neg h1, if_pos h2] at h
      obtain rfl := Option.some.inj h
      split
      · exact .inl rfl
      · exact .inr (.inl rfl)
    · rw [edge_of_proper ⟨h1, h2⟩] at h
      obtain ⟨c, hc, rfl⟩ := Option.map_eq_some_iff.1 h
      exact .inr (.inr ⟨⟨h1, h2⟩, c, hc, rfl⟩)

/-- **A walk gets below `v` by looking it up**, in its parent and by its name, with nothing mounted on it. -/
theorem Tree.entered (hs : Tree s) (hv : s.parent v ≠ v) : ∀ (cs : List Name) {u : Nat}, ¬Under s v u →
    walk (edge s) u cs = .ok w → Under s v w →
      s.name v ∈ cs ∧ Proper (s.name v) ∧ dLookup s (s.parent v) (s.name v) = some v ∧ ∀ m ∈ s.mountTable, m.1 ≠ v
  | [], u, hu, hw, hvw => by
    cases hw
    exact absurd hvw hu
  | n :: cs, u, hu, hw, hvw => by
    cases he : edge s u n with
    | none =>
      rw [walk_cons_none he] at hw
      cases hw
    | some e =>
      rw [walk_cons_some he] at hw
      by_cases hve : Under s v e
      · rcases edge_cases he with rfl | rfl | ⟨hn, c, hc, rfl⟩
        · exact absurd hve hu
        · exact absurd hve.child hu
        · rcases crossMount_cases s c with heq | ⟨m, hm, -, heq⟩
          · rw [heq] at hve
            obtain ⟨hmem, hname⟩ := dLookup_mem hc
            have hpar := (hs.child u c hmem).1
            have hcv : c = v := by
              rcases Relation.ReflTransGen.cases_head hve with h | ⟨b, hb, hvb⟩
              · exact h
              · rw [hpar] at hb
                exact absurd (hb ▸ hvb) hu
            subst hcv
            rw [hpar, hname]
            refine ⟨List.mem_cons_self, hn, hc, fun m hm hm1 => hv ?_⟩
            obtain ⟨m', hm', hcross⟩ := crossMount_of_mem hm hm1
            rw [heq] at hcross
            rw [hcross]
            exact (hs.mount m' hm').2.2
          · -- the root of a mount is below nothing
            rw [heq] at hve
            have htop := (hs.mount m hm).2.2
            rw [hve.of_top htop] at htop
            exact absurd htop hv
      · obtain ⟨hmem, h⟩ := Tree.entered hs hv cs hve hw hvw
        exact ⟨List.mem_cons_of_mem n hmem, h⟩

theorem Above.under_name (h : Above s r ns d) : ∀ n ∈ ns, ∃ v, Under s v d ∧ s.parent v ≠ v ∧ n = s.name v := by
  induction h with
  | top => exact nofun
  | @under ns d hne _ ih =>
    intro n hn
    rcases List.mem_append.1 hn with hn | hn
    · obtain ⟨v, hv, h⟩ := ih n hn
      exact ⟨v, hv.child, h⟩
    · exact ⟨d, .refl, hne, List.mem_singleton.1 hn⟩

/-- A walk takes a step for each name, and one more to get to a root other than the one it starts from. -/
theorem Tree.length_above (hs : Tree s) (cs : List Name) : ∀ {r w : Nat} {ns : List Name}, resolve s cs = .ok w →
    Above s r ns w → r = s.rootDentry ∨ ns.length + 1 ≤ cs.length := by
  induction cs using List.reverseRecOn with
  | nil =>
    intro r w ns hw h
    cases hw
    cases h with
    | top => exact .inl rfl
    | under hne => exact absurd hs.root.2 hne
  | append_singleton cs n ih =>
    intro r w ns hw h
    rw [List.length_append, List.length_singleton]
    obtain ⟨u, hu, he⟩ := walk_snoc_ok hw
    have hlonger : ∀ {ns' : List Name}, Above s r ns' u → ns.length ≤ ns'.length + 1 →
        r = s.rootDentry ∨ ns.length + 1 ≤ cs.length + 1 := by
      intro ns' h' hlen
      exact (ih hu h').imp_right fun h => by omega
    rcases edge_cases he with rfl | rfl | ⟨-, c, hc, rfl⟩
    · exact hlonger h (Nat.le_succ _)
    · by_cases htop : s.parent u = u
      · rw [htop] at h
        exact hlonger h (Nat.le_succ _)
      · refine hlonger (.under htop h) ?_
        rw [List.length_append]
        omega
    · rcases crossMount_cases s c with heq | ⟨m, hm, -, heq⟩
      · rw [heq] at h
        obtain ⟨hpar, hne, -⟩ := hs.child u c (dLookup_mem hc).1
        cases h with
        | top htop => exact absurd (htop.symm.trans hpar) hne
        | under _ h =>
          rw [hpar] at h
          refine hlonger h ?_
          rw [List.length_append]
          exact Nat.le_refl _
      · rw [heq] at h
        cases h with
        | top => exact .inr (by simp)
        | under hne => exact absurd (hs.mount m hm).2.2 hne

/-- **A dentry its own text leads to** is named from the root. -/
theorem Tree.named (hs : Tree s) (h : Above s r ns d) (hw : resolve s (components (rootedText ns)) = .ok d) : Named s ns d := by
  have henter : ∀ v, Under s v d → s.parent v ≠ v → s.name v ∈ components (rootedText ns) ∧ Proper (s.name v) ∧
      dLookup s (s.parent v) (s.name v) = some v ∧ ∀ m ∈ s.mountTable, m.1 ≠ v := by
    intro v hv hne
    refine hs.entered hne _ (fun hroot => hne ?_) hw hv
    rw [← hroot.of_top hs.root.2]
    exact hs.root.2
  have hgood : ∀ m ∈ components (rootedText ns), m ≠ [] ∧ '/' ∉ m := fun m hm =>
    ⟨ne_nil_of_mem_components hm, slash_not_mem_components _ (Nat.le_refl _) m hm⟩
  have hroot : r = s.rootDentry := by
    have hcs : components (rootedText ns) = ns := components_rootedText fun n hn => by
      obtain ⟨v, hv, hne, rfl⟩ := h.under_name n hn
      exact hgood _ (henter v hv hne).1
    rw [hcs] at hw
    exact (hs.length_above ns hw h).resolve_right (Nat.not_succ_le_self _)
  subst hroot
  have hchain : ∀ {ns' : List Name} {w : Nat}, Above s s.rootDentry ns' w → Under s w d → Named s ns' w := by
    intro ns' w hw'
    induction hw' with
    | top => exact fun _ => .root
    | @under ns' w hne _ ih =>
      intro hu
      obtain ⟨hmem, hn, hl, hm⟩ := henter w hu hne
      exact .entry _ w (ih (hu.tail rfl)) hn (hgood _ hmem).1 (hgood _ hmem).2 hl hm
  exact hchain h .refl

/-! ## The three laws -/

theorem Tree.pathBack_iff (hs : Tree s) (hlt : d < s.nrDentry) (hpos : s.inode d ≠ none) : PathBack s d ↔ HasPath s d := by
  constructor
  · rintro ⟨bp, hbp, hres⟩
    obtain ⟨r, ns, h⟩ := hs.exists_above hlt
    rw [h.dentryPathRaw_eq (Nat.lt_of_le_of_lt (h.length_le hs hlt) hlt)] at hbp
    split at hbp
    · rename_i hfit
      cases hbp
      obtain ⟨e, he, hr, -⟩ := (resolves_iff hs.toWf).1 hres
      cases hr
      exact ⟨ns, hs.named h he, hfit⟩
    · cases hbp
  · rintro ⟨ns, h, hfit⟩
    have habove := h.above hs.toWf
    refine ⟨rootedText ns, ?_, h.resolves hs.toWf hpos⟩
    rw [habove.dentryPathRaw_eq (Nat.lt_of_le_of_lt (habove.length_le hs hlt) hlt), if_pos hfit]

theorem Tree.cwdBack_iff (hs : Tree s) (hp : Resolves s true p d) (hdir : IsDir s d) : CwdBack s p ↔ HasPath s d := by
  obtain ⟨i, hi, hmode⟩ := hdir
  have hchdir : sysChdir s p = (some (.ok d), s) := by
    unfold sysChdir
    rw [show kernPath s p lookupFollow = (.ok d, s) from kernPath_of_resolves hs.toWf hp]
    simp only [hi, hmode, if_true]
  have hlt : d < s.nrDentry := hp.lt hs.toWf
  obtain ⟨r, ns, h⟩ := hs.exists_above hlt
  have hpos : s.inode d ≠ none := fun hnone => nomatch hi.symm.trans hnone
  constructor
  · intro hback
    obtain ⟨path, hpath, hres⟩ := hback d s hchdir pathMax (Nat.le_refl _)
    rw [h.sysGetcwd_eq (Nat.lt_of_le_of_lt (h.length_le hs hlt) hlt) (Nat.le_refl _)] at hpath
    split at hpath
    · rename_i hfit
      cases hpath
      obtain ⟨e, he, hr, -⟩ := (resolves_iff hs.toWf).1 (hres false)
      cases hr
      exact ⟨ns, hs.named h he, hfit⟩
    · cases hpath
  · rintro ⟨ns', h', hfit⟩ d' t hd' size hsize
    rw [hchdir] at hd'
    cases hd'
    have habove := h'.above hs.toWf
    refine ⟨rootedText ns', ?_, fun f => (resolves_iff hs.toWf).2 ⟨d, ?_, ?_, hpos⟩⟩
    · rw [habove.sysGetcwd_eq (Nat.lt_of_le_of_lt (habove.length_le hs hlt) hlt) hsize, if_pos hfit]
    · rw [components_rootedText h'.mem]
      exact h'.resolve_eq
    · exact reach_of_not (isSymlink_of_isDir ⟨i, hi, hmode⟩) f

/-- A path goes on from where its first part leads. -/
theorem kernPath_append {flags : LookupFlags} (h : resolve s (components bp) = .ok d)
    (hne : flags.parent = true → components p ≠ []) : kernPath s (bp ++ '/' :: p) flags = kernPathFrom s d p flags := by
  have hwalk : walkPath flags.parent s s.rootDentry (components bp ++ components p) = walkPath flags.parent s d (components p) := by
    have hcs : walked flags.parent (components bp ++ components p) = components bp ++ walked flags.parent (components p) := by
      unfold walked
      split
      · rename_i hpar
        exact List.dropLast_append_of_ne_nil (hne hpar)
      · rfl
    rw [walkPath_eq, walkPath_eq, hcs, walk_append_ok _ h]
  rw [kernPath, components_append, hwalk]
  rfl

theorem pathLoop_withMem (as : List Bool) : ∀ (k d room : Nat) (text : List Char),
    pathLoop (withMem s as) k d room text = pathLoop s k d room text
  | 0, _, _, _ => rfl
  | k + 1, d, room, text => by
    unfold pathLoop
    rw [pathLoop_withMem as k]
    rfl

theorem dentryPathRaw_withMem (s : Fs) (as : List Bool) (d len : Nat) :
    dentryPathRaw (withMem s as) d len = dentryPathRaw s d len := by
  unfold dentryPathRaw
  rw [pathLoop_withMem]
  rfl

/-- Is there memory for the two texts of an `*at` call? -/
def roomForPath (as : List Bool) : Bool := answer as && answer as.tail

theorem atPath_eq (hroom : roomForPath s.kmalloc = true) (path : List Char) : atPath s d path =
    match dentryPathRaw s d pathMax with
    | none => (.error (-enametoolong), withMem s s.kmalloc.tail)
    | some bp => (.ok (bp ++ '/' :: path), afterAt s) := by
  obtain ⟨h1, h2⟩ := Bool.and_eq_true_iff.1 hroom
  unfold atPath
  rw [kmallocOk_eq, h1]
  dsimp only
  rw [dentryPathRaw_withMem]
  cases dentryPathRaw s d pathMax with
  | none => rfl
  | some bp =>
    have h2' : answer (withMem s s.kmalloc.tail).kmalloc = true := h2
    dsimp only
    rw [kmallocOk_eq, h2']
    rfl

theorem Tree.atSame_iff (hs : Tree s) (hlt : d < s.nrDentry) (hdir : IsDir s d) (hroom : roomForPath s.kmalloc = true) :
    AtSame s d ↔ HasPath s d := by
  obtain ⟨i, hi, hmode⟩ := hdir
  have hpos : s.inode d ≠ none := fun hnone => nomatch hi.symm.trans hnone
  rw [← hs.pathBack_iff hlt hpos]
  constructor
  · intro h
    -- the empty path leads to the directory itself
    have hself := h.resolved (fun _ => some d) 0 [] lookupNone rfl rfl nofun
    have hfrom : kernPathFrom (afterAt s) d [] lookupNone = (.ok d, afterAt s) := rfl
    rw [hfrom, atResolve, if_neg (by decide)] at hself
    simp only [dirFile, hi, hmode, not_true_eq_false, if_false, atPath_eq hroom] at hself
    cases hraw : dentryPathRaw s d pathMax with
    | none =>
      simp only [hraw] at hself
      cases hself
    | some bp =>
      simp only [hraw] at hself
      have hres : Resolves (afterAt s) false (bp ++ '/' :: []) d := by
        refine ⟨congrArg Prod.fst hself, ?_⟩
        rw [show kernPath (afterAt s) (bp ++ '/' :: []) ⟨false, false⟩ = _ from hself]
        exact hpos
      obtain ⟨e, he, hr, -⟩ := (resolves_iff (hs.mem s.kmalloc.tail.tail)).1 hres
      cases hr
      rw [components_append, show components [] = [] from rfl, List.append_nil] at he
      exact ⟨bp, hraw, (resolves_iff hs.toWf).2 ⟨d, he, rfl, hpos⟩⟩
  · rintro ⟨bp, hraw, hres⟩
    obtain ⟨e, he, hr, -⟩ := (resolves_iff hs.toWf).1 hres
    cases hr
    have he' : resolve (afterAt s) (components bp) = .ok d := he
    constructor
    · intro fget dirfd path flags hfd hplain hne
      unfold atResolve
      rw [hplain, if_neg Bool.false_ne_true, hfd]
      simp only [hi, hmode, not_true_eq_false, if_false, atPath_eq hroom, hraw]
      exact kernPath_append he' hne
    · intro fget dirfd path flags mode hfd hplain hcreat
      unfold sysOpenat
      rw [hplain, if_neg Bool.false_ne_true, hfd]
      have hfull : kernPath (afterAt s) (bp ++ '/' :: path) lookupFollow = kernPathFrom (afterAt s) d path lookupFollow :=
        kernPath_append he' nofun
      simp only [atPath_eq hroom, hraw, filpOpen, hfull]
      rcases kernPathFrom (afterAt s) d path lookupFollow with ⟨r, s'⟩
      cases r with
      | error e => exact if_neg fun hc => hc.2 hcreat
      | ok c => rfl

/-- **When the text leads back**: exactly where the names from the root lead to the dentry, past no mount, and fit. -/
theorem names_iff (hs : Tree s) (hlt : d < s.nrDentry) (hpos : s.inode d ≠ none) :
    (PathBack s d ↔ HasPath s d) ∧
    (∀ p, Resolves s true p d → IsDir s d → (CwdBack s p ↔ HasPath s d)) ∧
    (IsDir s d → roomForPath s.kmalloc = true → (AtSame s d ↔ HasPath s d)) :=
  ⟨hs.pathBack_iff hlt hpos, fun _ hp hdir => hs.cwdBack_iff hp hdir, fun hdir hroom => hs.atSame_iff hlt hdir hroom⟩

/-- A directory in the root. -/
theorem names_iff_mkdir : PathBack (sysMkdir (rootfs []) ['/', 'd'] 0x1ED).2 1 ∧
    CwdBack (sysMkdir (rootfs []) ['/', 'd'] 0x1ED).2 ['/', 'd'] ∧ AtSame (sysMkdir (rootfs []) ['/', 'd'] 0x1ED).2 1 := by
  have hs : Tree (sysMkdir (rootfs []) ['/', 'd'] 0x1ED).2 := tree_of_run [.mkdir ['/', 'd'] 0x1ED] ⟨[], rfl⟩ rfl
  have hdir : IsDir (sysMkdir (rootfs []) ['/', 'd'] 0x1ED).2 1 := ⟨1, by decide, by decide⟩
  have hpath : HasPath (sysMkdir (rootfs []) ['/', 'd'] 0x1ED).2 1 :=
    ⟨[['d']], .entry ['d'] 1 .root (by decide) (by decide) (by decide) (by decide) nofun, by decide⟩
  have h := names_iff hs (d := 1) (by decide) (by decide)
  exact ⟨h.1.2 hpath, (h.2.1 ['/', 'd'] ⟨by decide, by decide⟩ hdir).2 hpath, (h.2.2 hdir (by decide)).2 hpath⟩

/-- The path of the root of the file system on `/d` is `/`. -/
theorem not_names_mountedFs : Tree mountedFs ∧ Resolves mountedFs true ['/', 'd'] 2 ∧ IsDir mountedFs 2 ∧
    ¬PathBack mountedFs 2 ∧ ¬CwdBack mountedFs ['/', 'd'] ∧ ¬AtSame mountedFs 2 := by
  have hroot : ∀ f, (kernPath mountedFs ['/'] ⟨false, f⟩).1 = .ok 0 := by decide
  have hraw : dentryPathRaw mountedFs 2 pathMax = some ['/'] := by decide
  refine ⟨tree_mountedFs, ⟨by decide, by decide⟩, ⟨2, by decide, by decide⟩, ?_, fun h => ?_, fun h => ?_⟩
  · rintro ⟨bp, hbp, hres⟩
    rw [hraw] at hbp
    cases hbp
    have h0 := hres.1
    rw [hroot] at h0
    cases h0
  · have hchdir : sysChdir mountedFs ['/', 'd'] = (some (.ok 2), mountedFs) := rfl
    obtain ⟨path, hpath, hres⟩ := h 2 mountedFs hchdir pathMax (Nat.le_refl _)
    have hcwd : sysGetcwd mountedFs (some 2) pathMax = .ok ['/'] := by decide
    rw [hcwd] at hpath
    cases hpath
    have h0 := (hres true).1
    rw [hroot] at h0
    cases h0
  · have hself := congrArg Prod.fst (h.resolved (fun _ => some 2) 0 [] lookupNone rfl rfl nofun)
    have hat : (atResolve mountedFs (fun _ => some 2) 0 [] lookupNone).1 = .ok 0 := by decide
    rw [hat] at hself
    cases hself

end Vfs
end Pico
