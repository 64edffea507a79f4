import Mathlib
import Straightline.Command.Files
import Straightline.Proofs.Sequences

/-!
# Reading and writing files

A path leads from where it starts, part by part, to a place in a directory tree.
Writing puts a file at the place that the path leads to. A directory that was
there is still there, so every path leads where it led before (`walk_put`), and
a file at any other place can be read as before (`read_put_of_ne`).

The path that target text is written to by default has the parts of the source
path, but for what follows the last dot of the last one (`exists_parts`). So it
is the source path itself just if that ends in `.ll` (`targetPath_eq_iff`).
-/

namespace Straightline

/-! ## Paths -/

namespace Path

theorem split_ne_nil (cs : List Char) : split cs ≠ [] := by
  cases cs with
  | nil => simp [split]
  | cons c cs =>
    rw [split]
    split
    · simp
    · split <;> simp

/-- What has no slash goes to the last part. -/
theorem split_append {front name last : List Char} {init : List (List Char)}
    (h : split front = init ++ [last]) (hname : '/' ∉ name) :
    split (front ++ name) = init ++ [last ++ name] := by
  have hsplit (cs : List Char) (hcs : '/' ∉ cs) : split cs = [cs] := by
    induction cs with
    | nil => rfl
    | cons c cs ih =>
      obtain ⟨hc, hcs⟩ := not_or.mp (mt List.mem_cons.mpr hcs)
      rw [split, if_neg (Ne.symm hc), ih hcs]
  induction front generalizing init last with
  | nil =>
    have hnil : init ++ [last] = [[]] := h.symm
    obtain ⟨rfl, rfl⟩ : init = [] ∧ last = [] := by
      cases init with
      | nil => simpa using hnil
      | cons _ _ => simp at hnil
    simpa using hsplit name hname
  | cons c front ih =>
    rw [List.cons_append, split]
    rw [split] at h
    by_cases hc : c = '/'
    · rw [if_pos hc] at h ⊢
      cases init with
      | nil => simp [split_ne_nil] at h
      | cons part init =>
        obtain ⟨rfl, hfront⟩ := List.cons.inj h
        rw [ih hfront, List.cons_append]
    · rw [if_neg hc] at h ⊢
      -- The character goes to the first part, which may be the last one.
      cases hparts : split front with
      | nil => exact absurd hparts (split_ne_nil front)
      | cons part parts =>
        rw [hparts] at h
        cases init with
        | nil =>
          obtain ⟨rfl, rfl⟩ : last = c :: part ∧ parts = [] := by
            simpa [eq_comm] using h
          have hfront : split front = [] ++ [part] := hparts
          rw [ih hfront]
          rfl
        | cons part' init =>
          obtain ⟨rfl, rfl⟩ : part' = c :: part ∧ parts = init ++ [last] := by
            simpa [eq_comm] using h
          have hfront : split front = (part :: init) ++ [last] := hparts
          rw [ih hfront]
          rfl

/-- A path is what stays of it and its extension, which is empty
or starts with a dot. -/
theorem exists_extension (cs : List Char) :
    ∃ extension, cs = stem cs ++ extension ∧ '/' ∉ extension ∧
      ∀ c ∈ extension.head?, c = '.' := by
  have hsplit :=
    cs.reverse.takeWhile_append_dropWhile (p := fun c => c ≠ '.' && c ≠ '/')
  have hslash : '/' ∉ cs.reverse.takeWhile fun c => c ≠ '.' && c ≠ '/' := by
    intro hmem
    simpa using List.mem_takeWhile_imp hmem
  unfold stem
  dsimp only
  split
  · next rest hdrop =>
    rw [hdrop] at hsplit
    refine ⟨'.' :: (cs.reverse.takeWhile fun c => c ≠ '.' && c ≠ '/').reverse,
      ?_, by simpa using hslash, by simp⟩
    have hback := congrArg List.reverse hsplit
    simpa using hback.symm
  · exact ⟨[], by simp, by simp, by simp⟩

/-- The target path is the source path just if nothing has to be replaced or added. -/
theorem targetPath_eq_iff {path : String} :
    targetPath path = path ↔ ∃ front, path = front ++ ".ll" := by
  constructor
  · intro h
    exact ⟨_, h.symm⟩
  · rintro ⟨front, rfl⟩
    simp [targetPath, stem]

/-- A path and its target path have the same parts, but for the end of the last one. -/
theorem exists_parts (path : String) :
    ∃ init base extension, parts path = init ++ [base ++ extension] ∧
    parts (targetPath path) = init ++ [base ++ ".ll"] ∧
      (extension = ".ll" → targetPath path = path) := by
  obtain ⟨extension, hpath, hslash, -⟩ := exists_extension path.toList
  obtain ⟨init, last, hstem⟩ : ∃ init last, split (stem path.toList) = init ++ [last] :=
    (List.eq_nil_or_concat' _).resolve_left (split_ne_nil _)
  refine ⟨init.map String.ofList, String.ofList last,
    String.ofList extension, ?_, ?_, ?_⟩
  · rw [parts, hpath, split_append hstem hslash]
    simp
  · rw [parts, targetPath, String.toList_append, String.toList_ofList,
      split_append hstem (by decide)]
    simp
  · intro hext
    apply String.toList_injective
    rw [targetPath, String.toList_append, String.toList_ofList, ← hext,
      String.toList_ofList]
    exact hpath.symm

theorem targetName_notMem (base : String) : base ++ ".ll" ∉ ["", ".", ".."] := by
  intro hmem
  have hshort : ∀ name ∈ ["", ".", ".."], name.length ≤ 2 := by decide
  have hlength := hshort _ hmem
  rw [String.length_append] at hlength
  have hthree : ".ll".length = 3 := rfl
  omega

end Path

namespace Command.FileTree

/-- The target path starts where the path does. -/
theorem origin_targetPath (path : String) :
    origin (Path.targetPath path) = origin path := by
  obtain ⟨extension, hpath, -, hdot⟩ := Path.exists_extension path.toList
  have hhead : (Path.targetPath path).toList.head? = some '/' ↔
      path.toList.head? = some '/' := by
    rw [Path.targetPath, String.toList_append, String.toList_ofList]
    cases hstem : Path.stem path.toList with
    | nil =>
      -- Nothing stays of the path, so it is empty or starts with a dot.
      rw [hstem, List.nil_append] at hpath
      rw [hpath]
      refine iff_of_false (by decide) fun hslash => ?_
      exact absurd (hdot '/' hslash) (by decide)
    | cons c cs =>
      rw [hstem] at hpath
      rw [hpath]
      simp
  unfold origin
  rw [if_congr hhead rfl rfl]

/-! ## Files that are put in their places -/

section
variable {t : FileTree} {p q : Place} {data : List UInt8}

theorem isDir_put (h : t.isDir p = true) : (t.put q data).isDir p = true := by
  simp only [isDir, Bool.or_eq_true] at h ⊢
  rcases h with h | h
  · exact .inl h
  · right
    -- A file further down shows that the directory is there; if it is
    -- replaced, the new one does.
    obtain ⟨⟨r, old⟩, hr, hbelow⟩ := List.any_eq_true.mp h
    by_cases hrq : r = q
    · subst hrq
      exact List.any_eq_true.mpr ⟨(r, data), List.mem_cons_self, hbelow⟩
    · refine List.any_eq_true.mpr ⟨(r, old), List.mem_cons_of_mem _ ?_, hbelow⟩
      exact List.mem_filter.mpr ⟨hr, by simpa using hrq⟩

theorem walk_put {parts : List String} {r : Place} (h : t.walk p parts = .ok r) :
    (t.put q data).walk p parts = .ok r := by
  induction parts generalizing p with
  | nil => exact h
  | cons part parts ih =>
    rw [walk] at h ⊢
    obtain ⟨_, henter, h⟩ := bind_eq_ok.mp h
    have hdir : t.isDir p = true := by
      unfold enter at henter
      split at henter
      · assumption
      · split at henter <;> cases henter
    refine bind_eq_ok.mpr ⟨(), by rw [enter, if_pos (isDir_put hdir)], ?_⟩
    split at h
    · next hstay => rw [if_pos hstay]; exact ih h
    next hstay =>
    rw [if_neg hstay]
    split at h
    · next hup => rw [if_pos hup]; exact ih h
    · next hup => rw [if_neg hup]; exact ih h

theorem content?_put_self (t : FileTree) (p : Place) (data : List UInt8) :
    (t.put p data).content? p = some data := by
  simp [content?, put]

theorem content?_put_of_ne (t : FileTree) (data : List UInt8) (h : q ≠ p) :
    (t.put p data).content? q = t.content? q := by
  have hfilter (files : List (Place × List UInt8)) :
      (files.filter (·.1 ≠ p)).lookup q = files.lookup q := by
    induction files with
    | nil => rfl
    | cons file files ih =>
      by_cases hfile : file.1 = p
      · have hne : (q == file.1) = false := by simpa [hfile] using h
        rw [List.filter_cons_of_neg (by simpa using hfile), ih, List.lookup_cons, hne]
      · rw [List.filter_cons_of_pos (by simpa using hfile), List.lookup_cons,
          List.lookup_cons, ih]
  have hne : (q == p) = false := by simpa using h
  rw [content?, put, List.lookup_cons, hne]
  exact hfilter t.files

end

/-! ## Reading and writing -/

/-- Whether a path leads to a place, where there may be something or not. -/
def Leads (t : FileTree) (path : String) (p : Place) : Prop :=
  path ≠ "" ∧ t.walk (origin path) (Path.parts path) = .ok p

section
variable {t t' : FileTree} {path : String} {p q : Place} {data data' : List UInt8}

theorem Leads.put (h : t.Leads path p) : (t.put q data).Leads path p :=
  ⟨h.1, walk_put h.2⟩

theorem read_eq_ok_iff :
    t.read path = .ok data ↔ ∃ p, t.Leads path p ∧ t.content? p = some data := by
  unfold read Leads
  by_cases hempty : path = ""
  · simp [hempty, bind, Except.bind]
  · rw [if_neg hempty]
    constructor
    · intro h
      obtain ⟨p, hp, h⟩ := bind_eq_ok.mp h
      cases hcontent : t.content? p with
      | some found =>
        rw [hcontent] at h
        cases h
        exact ⟨p, ⟨hempty, hp⟩, hcontent⟩
      | none =>
        rw [hcontent] at h
        dsimp only at h
        split at h <;> cases h
    · rintro ⟨p, ⟨-, hp⟩, hcontent⟩
      refine bind_eq_ok.mpr ⟨p, hp, ?_⟩
      rw [hcontent]
      rfl

theorem read_put_self (h : t.Leads path p) : (t.put p data).read path = .ok data :=
  read_eq_ok_iff.mpr ⟨p, h.put, content?_put_self t p data⟩

/-- A file is read as before if another one is written. -/
theorem read_put_of_ne (h : t.Leads path p) (hne : p ≠ q)
    (hread : t.read path = .ok data) : (t.put q data').read path = .ok data := by
  obtain ⟨p', hp', hcontent⟩ := read_eq_ok_iff.mp hread
  obtain rfl : p' = p := Except.ok.inj (hp'.2.symm.trans h.2)
  exact read_eq_ok_iff.mpr ⟨p', h.put, by rw [content?_put_of_ne t data' hne, hcontent]⟩

theorem walk_append (t : FileTree) (p : Place) (parts parts' : List String) :
    t.walk p (parts ++ parts') = t.walk p parts >>= fun q => t.walk q parts' := by
  induction parts generalizing p with
  | nil => rfl
  | cons part parts ih =>
    rw [List.cons_append, walk, walk]
    cases t.enter p with
    | error reason => rfl
    | ok _ =>
      show (if _ then _ else if _ then _ else _) =
        (if _ then _ else if _ then _ else _) >>= _
      split
      · exact ih p
      · split
        · exact ih _
        · exact ih _

/-- A file is put under the last part of the path that it is written to. -/
theorem eq_put_of_write {init : List String} {name : String}
    (hparts : Path.parts path = init ++ [name]) (hname : name ≠ "")
    (h : t.write path data = .ok t') :
    ∃ p, t.walk (origin path) init = .ok p ∧ t' = t.put (p ++ [name]) data := by
  have hnamed : (Path.parts path).reverse.dropWhile (· == "") =
      name :: init.reverse := by
    simp [hparts, hname]
  unfold write at h
  simp only [hnamed, List.head?_cons, Option.getD_some, List.tail_cons,
    List.reverse_reverse] at h
  split at h
  · cases h
  obtain ⟨p, hp, h⟩ := bind_eq_ok.mp h
  obtain ⟨_, -, h⟩ := bind_eq_ok.mp h
  split at h
  · cases h
  split at h
  · cases h
  · exact ⟨p, hp, (Except.ok.inj h).symm⟩

/-- The last part of a path leads down, unless it is one of those
that lead elsewhere. -/
theorem eq_append_of_walk {name : String} (hname : name ∉ ["", ".", ".."])
    (h : t.walk p [name] = .ok q) : q = p ++ [name] := by
  obtain ⟨hempty, hdot, hdots⟩ : name ≠ "" ∧ name ≠ "." ∧ name ≠ ".." := by
    simpa using hname
  rw [walk, if_neg (by simp [hempty, hdot]), if_neg hdots] at h
  obtain ⟨_, -, h⟩ := bind_eq_ok.mp h
  exact (Except.ok.inj h).symm

theorem parent_ne_append {name : String} (hname : name ≠ "..") :
    p.parent ≠ p ++ [name] := by
  unfold Place.parent
  split
  · simp
  · split
    · next hlast =>
      have hnil : p = [] := List.getLast?_eq_none_iff.mp hlast
      simpa [hnil] using hname.symm
    · split
      · simpa using hname.symm
      · intro heq
        have hlength := congrArg List.length heq
        simp at hlength

theorem ne_append_of_walk {name name' : String} (hname : name ≠ name')
    (hdots : name' ≠ "..") (h : t.walk p [name] = .ok q) : q ≠ p ++ [name'] := by
  rw [walk] at h
  obtain ⟨_, -, h⟩ := bind_eq_ok.mp h
  split at h
  · obtain rfl : p = q := Except.ok.inj h
    simp
  · split at h
    · obtain rfl : p.parent = q := Except.ok.inj h
      exact parent_ne_append hdots
    · obtain rfl : p ++ [name] = q := Except.ok.inj h
      simpa using hname

/-- What is read at a path after something was written to its target path: the
same as before, unless the two are one. -/
theorem read_of_write_targetPath (hread : t.read path = .ok data)
    (hwrite : t.write (Path.targetPath path) data' = .ok t') :
    t'.read path = .ok (if Path.targetPath path = path then data' else data) := by
  obtain ⟨p, hleads, -⟩ := read_eq_ok_iff.mp hread
  obtain ⟨init, base, extension, hparts, htarget, hsame⟩ := Path.exists_parts path
  -- Both paths lead through the same directory; the last parts tell whether
  -- they lead to the same file.
  have hname := Path.targetName_notMem base
  obtain ⟨dir, hdir, rfl⟩ :=
    eq_put_of_write htarget (fun h => hname (h ▸ List.mem_cons_self)) hwrite
  rw [origin_targetPath] at hdir
  have hlast : t.walk dir [base ++ extension] = .ok p := by
    have hwalk := hleads.2
    rw [hparts, walk_append, hdir] at hwalk
    exact hwalk
  by_cases hext : extension = ".ll"
  · subst hext
    rw [if_pos (hsame rfl), ← eq_append_of_walk hname hlast]
    exact read_put_self hleads
  · have hpath : Path.targetPath path ≠ path := by
      intro heq
      rw [heq, hparts] at htarget
      exact hext (by simpa using htarget)
    rw [if_neg hpath]
    refine read_put_of_ne hleads
      (ne_append_of_walk ?_ (fun h => hname (by simp [h])) hlast) hread
    simpa using hext

end

end Command.FileTree

end Straightline
