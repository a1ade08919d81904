/-
The file beside another that has a given extension.

A path is a directory, the name of a file in it, and maybe slashes behind the name. It is read from
its end, where these slashes, the name and in the name the last dot are found first. What comes out
can be said of the path as it is written: what stands behind the last dot of the name is replaced,
or a dot and the extension are added if there is no such dot. A dot in front of a name is none.

* `Path.IsDirectory`, `Path.IsName`, `Path.IsTail`, `Path.Parts`: the parts of a path that names a
  file.
* `Path.Beside`: the path with an extension, for every path, also for one that names no file.
* `Path.exists_tail`, `Path.Parts.trimmed_eq`: reading from the end finds the parts.
* `Path.Beside.eq_withExtension`, `Path.exists_beside`: what is computed is the only such path, and
  there is one.
* `Path.beside_iff`: **the path with an extension** is the one that is computed.
-/
import Mathlib.Tactic
import Mathlib.Data.List.TakeWhile
import Chip8.Path

namespace Chip8

namespace Path

/-! ### The parts of a path -/

/-- What stands before a name: nothing, or a path with a slash behind it. -/
def IsDirectory (dir : List Char) : Prop := dir = [] ∨ ∃ above, dir = above ++ ['/']

/-- A name of a file. It has no slash in it, and is no step to the same directory or up. -/
structure IsName (name : List Char) : Prop where
  ne_nil : name ≠ []
  slash : '/' ∉ name
  here : name ≠ ['.']
  up : name ≠ ['.', '.']

/-- What may stand behind a name: slashes, and steps to the same directory. -/
def IsTail (tail : List Char) : Prop :=
  ∃ steps : List (List Char), (∀ s ∈ steps, s = ['/'] ∨ s = ['/', '.']) ∧ steps.flatten = tail

/-- A path that names a file: a directory, the name, and what stands behind it. -/
structure Parts (p : String) (dir name tail : List Char) : Prop where
  toList_eq : p.toList = dir ++ name ++ tail
  directory : IsDirectory dir
  name : IsName name
  tail : IsTail tail

/-- The second path is the first with an extension. -/
inductive Beside (ext p : String) : String → Prop
  /-- The name has a dot with something before it. What stands behind the last one is replaced. -/
  | replaced {dir stem old tail : List Char} (h : Parts p dir (stem ++ '.' :: old) tail)
      (hstem : stem ≠ []) (hold : '.' ∉ old) (hdots : stem ≠ ['.'] ∨ tail ≠ []) :
      Beside ext p (String.ofList (dir ++ stem) ++ "." ++ ext)
  /-- The name has no dot, or one in front only. -/
  | added {dir name tail : List Char} (h : Parts p dir name tail) (hdot : '.' ∉ name.tail) :
      Beside ext p (String.ofList (dir ++ name) ++ "." ++ ext)
  /-- At the end of the path stand two dots and an extension. Two dots alone name no file, so that
  nothing is added. -/
  | dots {dir old : List Char} (h : Parts p dir ('.' :: '.' :: old) []) (hold : '.' ∉ old) :
      Beside ext p (String.ofList (dir ++ ['.', '.']))
  /-- The path names no file. -/
  | nameless (h : ∀ dir name tail, ¬ Parts p dir name tail) : Beside ext p p

/-! ### Reading from the end -/

variable {p q ext : String} {dir name tail stem old r : List Char}

lemma IsTail.append_step {s : List Char} (h : IsTail tail) (hs : s = ['/'] ∨ s = ['/', '.']) :
    IsTail (tail ++ s) := by
  obtain ⟨steps, hsteps, rfl⟩ := h
  refine ⟨steps ++ [s], ?_, by simp⟩
  exact List.forall_mem_append.mpr ⟨hsteps, List.forall_mem_singleton.mpr hs⟩

/-- What is left out at the end is slashes and steps to the same directory. -/
lemma exists_tail (r : List Char) : ∃ tail, IsTail tail ∧ r = tail.reverse ++ trimmed r := by
  induction hn : r.length using Nat.strong_induction_on generalizing r with
  | _ n ih =>
    rw [trimmed.eq_def]
    split
    · next r =>
      obtain ⟨tail, htail, hr⟩ := ih r.length (by simp [← hn]) r rfl
      exact ⟨tail ++ ['/'], htail.append_step (.inl rfl), by simp [← hr]⟩
    · next r =>
      obtain ⟨tail, htail, hr⟩ := ih r.length (by simp [← hn]) r rfl
      refine ⟨tail ++ ['/', '.'], htail.append_step (.inr rfl), ?_⟩
      rw [trimmed]
      simp [← hr]
    · exact ⟨[], ⟨[], by simp, rfl⟩, rfl⟩

/-- Slashes and steps to the same directory are left out. -/
lemma IsTail.trimmed_append (h : IsTail tail) (r : List Char) :
    trimmed (tail.reverse ++ r) = trimmed r := by
  obtain ⟨steps, hsteps, rfl⟩ := h
  induction steps using List.reverseRecOn with
  | nil => rfl
  | append_singleton steps s ih =>
      obtain ⟨hinit, hs⟩ := List.forall_mem_append.mp hsteps
      rw [List.flatten_append, List.reverse_append, List.append_assoc]
      rcases hs s (.head _) with rfl | rfl
      · exact ih hinit
      · exact ih hinit

/-- A name is not left out. -/
lemma IsName.trimmed_append (h : IsName name) (dir : List Char) :
    trimmed (name.reverse ++ dir) = name.reverse ++ dir := by
  have hslash : '/' ∉ name.reverse := by simpa using h.slash
  rw [trimmed.eq_def]
  split
  · next r hr =>
    -- the last character of the name would be a slash
    cases hname : name.reverse with
    | nil => exact absurd (List.reverse_eq_nil_iff.mp hname) h.ne_nil
    | cons c cs =>
        rw [hname] at hr hslash
        cases hr
        exact absurd (.head _) hslash
  · next r hr =>
    -- the name would be a dot, or have a slash before its last character
    match hname : name.reverse with
    | [] => exact absurd (List.reverse_eq_nil_iff.mp hname) h.ne_nil
    | [c] =>
        rw [hname] at hr
        cases hr
        exact absurd (List.reverse_eq_iff.mp hname) h.here
    | c :: d :: cs =>
        rw [hname] at hr hslash
        cases hr
        exact absurd (.tail _ (.head _)) hslash
  · rfl

/-- The parts of a path are found from its end. -/
lemma Parts.trimmed_eq (h : Parts p dir name tail) :
    trimmed p.toList.reverse = name.reverse ++ dir.reverse := by
  rw [h.toList_eq, List.reverse_append, List.reverse_append, h.tail.trimmed_append,
    h.name.trimmed_append]

lemma Parts.takeWhile_eq (h : Parts p dir name tail) :
    (name.reverse ++ dir.reverse).takeWhile (· != '/') = name.reverse ∧
      (name.reverse ++ dir.reverse).dropWhile (· != '/') = dir.reverse := by
  have hname : ∀ c ∈ name.reverse, (c != '/') = true := by
    intro c hc
    refine bne_iff_ne.mpr fun he => h.name.slash ?_
    rwa [← he, ← List.mem_reverse]
  rw [List.takeWhile_append_of_pos hname, List.dropWhile_append_of_pos hname]
  rcases h.directory with rfl | ⟨above, rfl⟩ <;> simp

lemma Parts.tail_eq_nil_iff (h : Parts p dir name tail) :
    trimmed p.toList.reverse = p.toList.reverse ↔ tail = [] := by
  rw [h.trimmed_eq, h.toList_eq, List.reverse_append, List.reverse_append]
  simp

lemma namesNoFile_iff : namesNoFile name = true ↔ name = [] ∨ name = ['.'] ∨ name = ['.', '.'] := by
  simp [namesNoFile, or_assoc]

lemma IsName.namesNoFile (h : IsName name) : namesNoFile name.reverse = false := by
  refine Bool.eq_false_iff.mpr fun hno => ?_
  rcases namesNoFile_iff.mp hno with hno | hno | hno
  · exact h.ne_nil (List.reverse_eq_nil_iff.mp hno)
  · exact h.here (List.reverse_eq_iff.mp hno)
  · exact h.up (List.reverse_eq_iff.mp hno)

/-- A path that names a file is changed behind the dot that is left of its name. -/
lemma Parts.withExtension_eq (h : Parts p dir name tail) (ext : String) :
    withExtension p ext =
      if namesNoFile (withoutExtension name.reverse) = true ∧ tail = [] then
        String.ofList (dir ++ (withoutExtension name.reverse).reverse)
      else String.ofList (dir ++ (Path.stem (withoutExtension name.reverse)).reverse) ++ "." ++
        ext := by
  have hname := h.name.namesNoFile
  simp only [withExtension, h.trimmed_eq, h.takeWhile_eq, hname, Bool.false_eq_true, if_false,
    List.reverse_append, List.reverse_reverse, Bool.and_eq_true, beq_iff_eq, ← h.tail_eq_nil_iff]

/-! ### Extensions -/

/-- What stands behind the last dot of a name is taken off. -/
lemma withoutExtension_of_dot (hstem : stem ≠ []) (hold : '.' ∉ old) :
    withoutExtension (stem ++ '.' :: old).reverse = '.' :: stem.reverse := by
  have hpos : ∀ c ∈ old.reverse, (c != '.') = true := by
    intro c hc
    refine bne_iff_ne.mpr fun he => hold ?_
    rwa [← he, ← List.mem_reverse]
  have hdrop : (stem ++ '.' :: old).reverse.dropWhile (· != '.') = '.' :: stem.reverse := by
    rw [List.reverse_append, List.reverse_cons, List.append_assoc,
      List.dropWhile_append_of_pos hpos]
    rfl
  obtain ⟨c, cs, hc⟩ := List.exists_cons_of_ne_nil (List.reverse_ne_nil_iff.mpr hstem)
  rw [withoutExtension, hdrop, hc]

/-- From a name without a dot, or with one in front only, nothing is taken off. -/
lemma withoutExtension_of_tail (hdot : '.' ∉ name.tail) :
    withoutExtension name.reverse = name.reverse := by
  cases name with
  | nil => rfl
  | cons c cs =>
      have hpos : ∀ d ∈ cs.reverse, (d != '.') = true := by
        intro d hd
        refine bne_iff_ne.mpr fun he => hdot ?_
        rwa [← he, List.tail_cons, ← List.mem_reverse]
      rw [List.reverse_cons, withoutExtension, List.dropWhile_append_of_pos hpos]
      by_cases hc : c = '.' <;> simp [hc]

/-- Nor is there a dot at its end. -/
lemma stem_of_tail (hdot : '.' ∉ name.tail) : Path.stem name.reverse = name.reverse := by
  cases name with
  | nil => rfl
  | cons c cs =>
      rw [List.reverse_cons, Path.stem.eq_def]
      split
      · next d r h =>
        -- the name would end with a dot that is not its first character
        cases hcs : cs.reverse with
        | nil =>
            rw [hcs] at h
            cases h
        | cons e es =>
            rw [hcs] at h
            obtain ⟨rfl, -⟩ := List.cons.inj h
            exact absurd (List.mem_reverse.mp (hcs ▸ .head _)) hdot
      · rfl

/-- A name with a dot that is not in front has a last one. -/
lemma exists_dot (h : '.' ∈ name.tail) :
    ∃ stem old, name = stem ++ '.' :: old ∧ stem ≠ [] ∧ '.' ∉ old := by
  cases name with
  | nil => cases h
  | cons c cs =>
      obtain ⟨after, before, hcs, hafter⟩ :=
        List.eq_append_cons_of_mem (List.mem_reverse.mpr h : '.' ∈ cs.reverse)
      refine ⟨c :: before.reverse, after.reverse, ?_, List.cons_ne_nil _ _, by simpa using hafter⟩
      rw [List.reverse_eq_iff.mp hcs]
      simp

/-- What is left of a name behind whose last dot all is taken off. -/
lemma stem_cons_dot (hstem : stem ≠ []) : Path.stem ('.' :: stem.reverse) = stem.reverse := by
  obtain ⟨c, cs, hc⟩ := List.exists_cons_of_ne_nil (List.reverse_ne_nil_iff.mpr hstem)
  rw [hc, Path.stem]

lemma namesNoFile_cons_dot_iff (hstem : stem ≠ []) :
    namesNoFile ('.' :: stem.reverse) = true ↔ stem = ['.'] := by
  rw [namesNoFile_iff]
  simp [hstem, List.reverse_eq_iff]

/-! ### The path with an extension -/

/-- Unless the last step names no file, the path has the parts that are found from its end. -/
lemma exists_parts
    (h : namesNoFile ((trimmed p.toList.reverse).takeWhile (· != '/')) = false) :
    ∃ dir name tail, Parts p dir name tail := by
  obtain ⟨tail, htail, hp⟩ := exists_tail p.toList.reverse
  generalize trimmed p.toList.reverse = r at h hp
  have hno : ¬ namesNoFile (r.takeWhile (· != '/')) = true := by simp [h]
  rw [namesNoFile_iff, not_or, not_or] at hno
  obtain ⟨hnil, hhere, hup⟩ := hno
  refine ⟨(r.dropWhile (· != '/')).reverse, (r.takeWhile (· != '/')).reverse, tail, ?_, ?_, ?_,
    htail⟩
  · rw [← List.reverse_append, List.takeWhile_append_dropWhile, ← List.reverse_reverse tail,
      ← List.reverse_append, ← hp, List.reverse_reverse]
  · cases hdir : r.dropWhile (· != '/') with
    | nil => exact .inl rfl
    | cons c above =>
        have hc := List.head?_dropWhile_not (· != '/') r
        rw [hdir, List.head?_cons] at hc
        refine .inr ⟨above.reverse, ?_⟩
        rw [List.reverse_cons, bne_eq_false_iff_eq.mp hc]
  · refine ⟨by simpa using hnil, fun hmem => ?_, ?_, ?_⟩
    · have hc := List.mem_takeWhile_imp (List.mem_reverse.mp hmem)
      exact absurd rfl (bne_iff_ne.mp hc)
    · exact fun he => hhere (List.reverse_eq_iff.mp he)
    · exact fun he => hup (List.reverse_eq_iff.mp he)

/-- A path that names no file stays as it is. -/
lemma withExtension_of_nameless (h : ∀ dir name tail, ¬ Parts p dir name tail) (ext : String) :
    withExtension p ext = p := by
  have hno : namesNoFile ((trimmed p.toList.reverse).takeWhile (· != '/')) = true := by
    by_contra hfile
    obtain ⟨dir, name, tail, hparts⟩ := exists_parts (Bool.eq_false_iff.mpr hfile)
    exact h dir name tail hparts
  simp only [withExtension, hno, if_true]

/-- **What is computed** is the only path with the extension. -/
theorem Beside.eq_withExtension (h : Beside ext p q) : q = withExtension p ext := by
  cases h with
  | @replaced dir stem old tail h hstem hold hdots =>
      have hfile : ¬ (namesNoFile ('.' :: stem.reverse) = true ∧ tail = []) := by
        rw [namesNoFile_cons_dot_iff hstem, not_and_or]
        exact hdots
      rw [h.withExtension_eq, withoutExtension_of_dot hstem hold, if_neg hfile,
        stem_cons_dot hstem, List.reverse_reverse]
  | added h hdot =>
      rw [h.withExtension_eq, withoutExtension_of_tail hdot, stem_of_tail hdot, h.name.namesNoFile,
        if_neg (by simp), List.reverse_reverse]
  | @dots dir old h hold =>
      have hkept : withoutExtension ('.' :: '.' :: old).reverse = ['.', '.'] :=
        withoutExtension_of_dot (List.cons_ne_nil '.' []) hold
      rw [h.withExtension_eq, hkept, if_pos ⟨rfl, rfl⟩]
      rfl
  | nameless h => exact (withExtension_of_nameless h ext).symm

/-- Every path has one with the extension. -/
lemma exists_beside (ext p : String) : ∃ q, Beside ext p q := by
  by_cases h : ∃ dir name tail, Parts p dir name tail
  · obtain ⟨dir, name, tail, h⟩ := h
    by_cases hdot : '.' ∈ name.tail
    · obtain ⟨stem, old, rfl, hstem, hold⟩ := exists_dot hdot
      by_cases hdots : stem = ['.'] ∧ tail = []
      · obtain ⟨rfl, rfl⟩ := hdots
        exact ⟨_, .dots h hold⟩
      · exact ⟨_, .replaced h hstem hold (not_and_or.mp hdots)⟩
    · exact ⟨_, .added h hdot⟩
  · simp only [not_exists] at h
    exact ⟨p, .nameless h⟩

/-- **The path with an extension** is the one that is computed. -/
theorem beside_iff : Beside ext p q ↔ q = withExtension p ext := by
  refine ⟨Beside.eq_withExtension, fun h => ?_⟩
  obtain ⟨q', hq⟩ := exists_beside ext p
  rwa [h, ← hq.eq_withExtension]

-- a dot in front starts no extension, and two dots are left alone
example : withExtension "dir/.asm" "ch8" = "dir/.asm.ch8" ∧
    withExtension "a.b.s" "ch8" = "a.b.ch8" ∧ withExtension "dir/..z" "ch8" = "dir/.." := by
  decide +kernel

end Path

end Chip8
