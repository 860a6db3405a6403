/-
  A file is read back as it was written.

  A path is followed part by part, from one directory to the next, and the file is kept under a name
  that is put together from the parts of the place that is reached.  So the parts of that name have
  to be the parts of the place again (`Path.parts_intercalate`), and no other name may have the same
  parts: on a disk that is `Tidy` every file is named by its parts.

  What a write does is said once (`Disk.write_cases`): it is refused and changes nothing, or it puts
  a text at a place that is no directory.  Directories stay directories then, and texts at other
  places stay as they are, so the way to a file leads to it as before.
-/
import EventLoop.Cli.Disk

namespace EventLoop.Cli

/-! ## Parts of paths -/

theorem not_mem_of_mem_splitOn {c : Char} {cs l : List Char} (h : l ∈ cs.splitOn c) : c ∉ l := by
  induction cs generalizing l with
  | nil =>
    rw [List.splitOn_nil, List.mem_singleton] at h
    rw [h]
    exact List.not_mem_nil
  | cons x rest ih =>
    rw [List.splitOn_cons_eq_if_modifyHead] at h
    by_cases hx : (x == c) = true
    · rw [if_pos hx, List.mem_cons] at h
      rcases h with rfl | h
      · exact List.not_mem_nil
      · exact ih h
    · rw [if_neg hx] at h
      cases hrest : rest.splitOn c with
      | nil => exact absurd hrest (List.splitOn_ne_nil c rest)
      | cons first others =>
        rw [hrest] at h ih
        rw [List.modifyHead_cons, List.mem_cons] at h
        rcases h with rfl | h
        · rw [List.mem_cons, not_or]
          refine ⟨?_, ih List.mem_cons_self⟩
          rintro rfl
          exact hx (beq_self_eq_true c)
        · exact ih (List.mem_cons_of_mem first h)

theorem splitOn_append {c : Char} (cs : List Char) {tail : List Char} (h : c ∉ tail) :
    ∃ before stem, (cs ++ tail).splitOn c = before ++ [stem ++ tail] := by
  induction cs with
  | nil => exact ⟨[], [], List.splitOn_eq_singleton h⟩
  | cons x rest ih =>
    obtain ⟨before, stem, hrest⟩ := ih
    rw [List.cons_append, List.splitOn_cons_eq_if_modifyHead, hrest]
    split
    · exact ⟨[] :: before, stem, rfl⟩
    · cases before with
      | nil => exact ⟨[], x :: stem, rfl⟩
      | cons first before => exact ⟨(x :: first) :: before, stem, rfl⟩

namespace Path

/-- A text that can be part of a path. -/
structure IsPart (part : String) : Prop where
  slash : '/' ∉ part.toList
  nonempty : part ≠ ""
  moves : part ≠ "."

theorem isPart_of_mem {path part : String} (h : part ∈ parts path) : IsPart part := by
  rw [parts, List.mem_filter, List.mem_map] at h
  obtain ⟨⟨cs, hcs, rfl⟩, hkept⟩ := h
  rw [Bool.and_eq_true, decide_eq_true_eq, decide_eq_true_eq] at hkept
  refine ⟨?_, hkept.1, hkept.2⟩
  rw [String.toList_ofList]
  exact not_mem_of_mem_splitOn hcs

theorem parts_intercalate {ps : List String} (h : ∀ p ∈ ps, IsPart p) :
    parts ("/".intercalate ps) = ps := by
  have hkept : ps.filter (fun part => part ≠ "" && part ≠ ".") = ps := by
    rw [List.filter_eq_self]
    intro p hp
    rw [Bool.and_eq_true, decide_eq_true_eq, decide_eq_true_eq]
    exact ⟨(h p hp).nonempty, (h p hp).moves⟩
  cases ps with
  | nil => rfl
  | cons first rest =>
    have hslash : ∀ l ∈ (first :: rest).map String.toList, '/' ∉ l := by
      intro l hl
      obtain ⟨p, hp, rfl⟩ := List.mem_map.1 hl
      exact (h p hp).slash
    have hlist : ("/".intercalate (first :: rest)).toList.splitOn '/' =
        (first :: rest).map String.toList := by
      rw [String.toList_intercalate]
      exact List.splitOn_intercalate '/' hslash (by simp)
    have htexts : ((first :: rest).map String.toList).map String.ofList = first :: rest := by
      rw [List.map_map]
      exact List.map_id'' (fun s => String.ofList_toList) _
    rw [parts, hlist, htexts, hkept]

/-- No short text ends as a step file does. -/
theorem ne_of_length_lt {name : String} (stem : String) (h : name.length < 11) :
    stem ++ ".steps.json" ≠ name := by
  rintro rfl
  rw [String.length_append] at h
  have hjson : ".steps.json".length = 11 := by decide
  omega

/-- A step file has its ending in the last part of its path. -/
theorem parts_stepFile (path : String) :
    ∃ before stem, parts (stepFile path) = before ++ [stem ++ ".steps.json"] := by
  obtain ⟨before, stem, hsplit⟩ := splitOn_append (normalize path).toList
    (by decide : '/' ∉ ".steps.json".toList)
  have hending : String.ofList (stem ++ ".steps.json".toList) =
      String.ofList stem ++ ".steps.json" := by
    rw [String.ofList_append, String.ofList_toList]
  refine ⟨(before.map String.ofList).filter fun part => part ≠ "" && part ≠ ".",
    String.ofList stem, ?_⟩
  rw [parts, stepFile, String.toList_append, hsplit, List.map_append, List.filter_append,
    List.map_singleton, hending, List.filter_cons_of_pos, List.filter_nil]
  rw [Bool.and_eq_true, decide_eq_true_eq, decide_eq_true_eq]
  exact ⟨ne_of_length_lt _ (by decide), ne_of_length_lt _ (by decide)⟩

end Path

/-! ## Places -/

/-- A place below the working directory is reached by parts of paths. -/
def Spot.Clean : Spot → Prop
  | .below way => ∀ p ∈ way, Path.IsPart p
  | .above | .elsewhere => True

namespace Spot

variable {spot : Spot} {part : String}

theorem Clean.start (path : String) : (start path).Clean := by
  rw [Spot.start]
  split
  · intro p hp
    cases hp
  · trivial

theorem Clean.enter (h : spot.Clean) (hpart : Path.IsPart part) : (spot.enter part).Clean := by
  unfold Spot.enter
  split
  · exact fun p hp => h p (List.mem_cons_of_mem _ hp)
  · trivial
  · trivial
  · intro p hp
    rcases List.mem_cons.1 hp with rfl | hp
    · exact hpart
    · exact h p hp
  · trivial
  · trivial

/-- Only the part that was entered last can be the last one on the way. -/
theorem enter_below {way : List String} (hpart : part ≠ "..") (h : spot.enter part = .below way) :
    way.head? = some part := by
  unfold Spot.enter at h
  rw [decide_eq_false hpart] at h
  cases spot with
  | below before =>
    cases before <;> cases h <;> rfl
  | above => cases h
  | elsewhere => cases h

end Spot

namespace Disk

variable {d d' : Disk} {spot place : Spot} {parts way : List String} {path text : String}

theorem walk_clean (h : d.walk spot parts = .ok place) (hspot : spot.Clean)
    (hparts : ∀ p ∈ parts, Path.IsPart p) : place.Clean := by
  induction parts generalizing spot with
  | nil =>
    cases h
    exact hspot
  | cons part rest ih =>
    rw [walk] at h
    split at h
    · cases h
    split at h
    · cases h
    exact ih h (hspot.enter (hparts part List.mem_cons_self))
      fun p hp => hparts p (List.mem_cons_of_mem part hp)

theorem find_clean (h : d.find path = .ok place) : place.Clean := by
  rw [find] at h
  split at h
  · cases h
  exact walk_clean h (.start path) fun p hp => Path.isPart_of_mem hp

theorem walk_concat {last : String} (h : d.walk spot (parts ++ [last]) = .ok place) :
    ∃ before : Spot, place = before.enter last := by
  induction parts generalizing spot with
  | nil =>
    rw [List.nil_append, walk] at h
    split at h
    · cases h
    split at h
    · cases h
    cases h
    exact ⟨spot, rfl⟩
  | cons part rest ih =>
    rw [List.cons_append, walk] at h
    split at h
    · cases h
    split at h
    · cases h
    exact ih h

/-- What is reached through directories is reached as long as they stay directories. -/
theorem walk_of_directories (hstay : ∀ s, d.look s = .directory → d'.look s = .directory)
    (h : d.walk spot parts = .ok place) : d'.walk spot parts = .ok place := by
  induction parts generalizing spot with
  | nil => exact h
  | cons part rest ih =>
    rw [walk] at h ⊢
    split at h
    · cases h
    next hlook =>
      rw [Decidable.not_not] at hlook
      rw [if_neg (by rw [hstay spot hlook]; simp)]
      split at h
      · cases h
      next hname =>
        rw [if_neg hname]
        exact ih h

theorem find_of_directories (hstay : ∀ s, d.look s = .directory → d'.look s = .directory)
    (h : d.find path = .ok place) : d'.find path = .ok place := by
  rw [find] at h ⊢
  split at h
  · cases h
  next hlength =>
    rw [if_neg hlength]
    exact walk_of_directories hstay h

theorem find_of_read {found : String} (h : d.read path = .text found) :
    ∃ place, d.find path = .ok place ∧ d.look place = .text found := by
  have hwalk (spot : Spot) (parts : List String) : d.walk spot parts ≠ .error (.text found) := by
    induction parts generalizing spot with
    | nil => simp [walk]
    | cons part rest ih =>
      rw [walk]
      split
      · simp
      split
      · simp
      exact ih (spot.enter part)
  rw [read] at h
  cases hfind : d.find path with
  | ok place =>
    rw [hfind] at h
    exact ⟨place, rfl, h⟩
  | error other =>
    rw [hfind] at h
    cases h
    rw [find] at hfind
    split at hfind
    · cases hfind
    exact absurd hfind (hwalk _ _)

section Outputs

variable (h : d'.files = d.files)

include h

theorem look_eq_of_files (spot : Spot) : d'.look spot = d.look spot := by
  cases spot with
  | below way => rw [look, look, h]
  | above => rfl
  | elsewhere => rfl

theorem find_eq_of_files (path : String) : d'.find path = d.find path := by
  have hwalk (spot : Spot) (parts : List String) : d'.walk spot parts = d.walk spot parts := by
    induction parts generalizing spot with
    | nil => rfl
    | cons part rest ih => rw [walk, walk, look_eq_of_files h, ih]
  rw [find, find, hwalk]

theorem read_eq_of_files (path : String) : d'.read path = d.read path := by
  rw [read, read, find_eq_of_files h]
  cases d.find path with
  | error found => rfl
  | ok spot => exact look_eq_of_files h spot

end Outputs

/-! ## Writing -/

/-- Every file is named by its parts. -/
def Tidy (d : Disk) : Prop := ∀ f ∈ d.files, "/".intercalate (Path.parts f.1) = f.1

/-- Puts a text at a place below the working directory. -/
def put (d : Disk) (way : List String) (text : String) : Disk :=
  { d with files := Assoc.insert d.files ("/".intercalate way.reverse) text }

/-- A write is refused, or puts the text at the place, which is no directory. -/
theorem write_cases (d : Disk) (path text : String) : (∃ c, d.write path text = (some c, d)) ∨
    ∃ way, d.find path = .ok (.below way) ∧ d.look (.below way) ≠ .directory ∧
      d.write path text = (none, d.put way text) := by
  rw [write]
  cases hfind : d.find path with
  | error found => cases found <;> exact .inl ⟨_, rfl⟩
  | ok place =>
    by_cases hlook : d.look place = .directory
    · simp only [hlook]
      exact .inl ⟨_, rfl⟩
    · cases place with
      | above => exact absurd rfl hlook
      | elsewhere => exact .inl ⟨_, rfl⟩
      | below way =>
        refine .inr ⟨way, rfl, hlook, ?_⟩
        simp only
        rfl

theorem write_eq_of_files (h : d'.files = d.files) (path text : String) :
    (d'.write path text).1 = (d.write path text).1 := by
  rw [write, write, find_eq_of_files h]
  cases d.find path with
  | error found => cases found <;> rfl
  | ok spot =>
    simp only [look_eq_of_files h]
    cases d.look spot <;> cases spot <;> rfl

theorem write_out (d : Disk) (path text : String) : (d.write path text).2.out = d.out := by
  rcases d.write_cases path text with ⟨c, hrefused⟩ | ⟨way, _, _, hput⟩
  · rw [hrefused]
  · rw [hput]
    rfl

theorem parts_name (h : (Spot.below way).Clean) :
    Path.parts ("/".intercalate way.reverse) = way.reverse :=
  Path.parts_intercalate fun p hp => h p (List.mem_reverse.1 hp)

section Insert

variable {files : List (String × String)} {name : String} {ps : List String}

theorem find?_insert_self (hnames : ∀ f ∈ files, Path.parts f.1 = ps → f.1 = name)
    (hname : Path.parts name = ps) (text : String) :
    (Assoc.insert files name text).find? (fun f => Path.parts f.1 = ps) = some (name, text) := by
  induction files with
  | nil =>
    rw [Assoc.insert]
    exact List.find?_cons_of_pos (decide_eq_true hname)
  | cons f rest ih =>
    rw [Assoc.insert]
    by_cases hf : (f.1 == name) = true
    · rw [if_pos hf]
      exact List.find?_cons_of_pos (decide_eq_true hname)
    · rw [if_neg hf, List.find?_cons_of_neg, ih fun g hg => hnames g (List.mem_cons_of_mem f hg)]
      rw [decide_eq_true_eq]
      intro hparts
      exact hf (beq_iff_eq.2 (hnames f List.mem_cons_self hparts))

theorem find?_insert_other (hname : Path.parts name ≠ ps) (text : String) :
    (Assoc.insert files name text).find? (fun f => Path.parts f.1 = ps) =
      files.find? fun f => Path.parts f.1 = ps := by
  induction files with
  | nil =>
    rw [Assoc.insert]
    exact List.find?_cons_of_neg (by rwa [decide_eq_true_eq])
  | cons f rest ih =>
    rw [Assoc.insert]
    by_cases hf : (f.1 == name) = true
    · have hparts : Path.parts f.1 ≠ ps := by rwa [beq_iff_eq.1 hf]
      rw [if_pos hf, List.find?_cons_of_neg (by rwa [decide_eq_true_eq]),
        List.find?_cons_of_neg (by rwa [decide_eq_true_eq])]
    · rw [if_neg hf, List.find?_cons, List.find?_cons, ih]

theorem any_insert (test : String → Bool) (h : files.any (fun f => test f.1) = true)
    (name text : String) : (Assoc.insert files name text).any (fun f => test f.1) = true := by
  induction files with
  | nil => cases h
  | cons f rest ih =>
    rw [List.any_cons, Bool.or_eq_true] at h
    rw [Assoc.insert]
    split
    · next hf =>
        rw [List.any_cons, Bool.or_eq_true, ← beq_iff_eq.1 hf]
        exact h
    · rw [List.any_cons, Bool.or_eq_true]
      exact h.imp id ih

end Insert

theorem Tidy.write (h : d.Tidy) (path text : String) : (d.write path text).2.Tidy := by
  rcases d.write_cases path text with ⟨c, hrefused⟩ | ⟨way, hfind, _, hput⟩
  · rw [hrefused]
    exact h
  · rw [hput]
    intro f hf
    rcases Assoc.mem_insert hf with rfl | hf
    · rw [parts_name (find_clean hfind)]
    · exact h f hf

theorem find?_put {other : List String} (hway : (Spot.below way).Clean) (hne : other ≠ way)
    (text : String) : ((d.put way text).files.find? fun f => Path.parts f.1 = other.reverse) =
      d.files.find? fun f => Path.parts f.1 = other.reverse := by
  refine find?_insert_other ?_ text
  rw [parts_name hway]
  exact fun heq => hne (List.reverse_inj.1 heq).symm

theorem look_put_self (h : d.Tidy) (hway : (Spot.below way).Clean) (text : String) :
    (d.put way text).look (.below way) = .text text := by
  have hnames : ∀ f ∈ d.files, Path.parts f.1 = way.reverse →
      f.1 = "/".intercalate way.reverse := by
    intro f hf hparts
    rw [← hparts, h f hf]
  rw [look, put]
  simp only [find?_insert_self hnames (parts_name hway)]

/-- Writing a file leaves directories in place. -/
theorem look_put_directory (hway : (Spot.below way).Clean)
    (hplace : d.look (.below way) ≠ .directory) (text : String) (h : d.look spot = .directory) :
    (d.put way text).look spot = .directory := by
  cases spot with
  | above => rfl
  | elsewhere => cases h
  | below other =>
    have hne : other ≠ way := by
      rintro rfl
      exact hplace h
    rw [look] at h ⊢
    simp only [find?_put hway hne]
    cases hfind : d.files.find? fun f => Path.parts f.1 = other.reverse with
    | some f =>
      rw [hfind] at h
      cases h
    | none =>
      rw [hfind] at h
      simp only at h ⊢
      split at h
      · next hprefix =>
          rw [Bool.or_eq_true] at hprefix
          rw [if_pos]
          rw [Bool.or_eq_true]
          exact hprefix.imp id fun hany =>
            any_insert (fun name => other.reverse.isPrefixOf (Path.parts name)) hany _ text
      · cases h

theorem look_put_other {found : String} (hway : (Spot.below way).Clean) (hne : spot ≠ .below way)
    (text : String) (h : d.look spot = .text found) : (d.put way text).look spot = .text found := by
  cases spot with
  | above => cases h
  | elsewhere => cases h
  | below other =>
    rw [look] at h ⊢
    simp only [find?_put hway fun heq => hne (congrArg Spot.below heq)]
    cases hfind : d.files.find? fun f => Path.parts f.1 = other.reverse with
    | some f =>
      rw [hfind] at h
      exact h
    | none =>
      rw [hfind] at h
      simp only at h
      split at h <;> cases h

/-- A file that could be written is read back as it was written. -/
theorem read_write (h : d.Tidy) (hwrite : (d.write path text).1 = none) :
    (d.write path text).2.read path = .text text := by
  rcases d.write_cases path text with ⟨c, hrefused⟩ | ⟨way, hfind, hplace, hput⟩
  · rw [hrefused] at hwrite
    cases hwrite
  · have hway := find_clean hfind
    have hfind' : (d.put way text).find path = .ok (.below way) :=
      find_of_directories (fun s => look_put_directory hway hplace text) hfind
    rw [hput, read, hfind']
    exact look_put_self h hway text

theorem read_write_other {other found : String} (hfind : d.find path = .ok spot)
    (hlook : d.look spot = .text found) (hne : d.find other ≠ .ok spot) :
    (d.write other text).2.read path = .text found := by
  rcases d.write_cases other text with ⟨c, hrefused⟩ | ⟨way, hway, hplace, hput⟩
  · rw [hrefused, read, hfind]
    exact hlook
  · have hclean := find_clean hway
    have hfind' : (d.put way text).find path = .ok spot :=
      find_of_directories (fun s => look_put_directory hclean hplace text) hfind
    rw [hput, read, hfind']
    refine look_put_other hclean ?_ text hlook
    rintro rfl
    exact hne hway

theorem find_logFile (h : d.find logFile = .ok spot) : spot = .below [logFile] := by
  have hparts : Path.parts logFile = [logFile] := by decide +kernel
  have hstart : Spot.start logFile = .below [] := by decide +kernel
  rw [find, hparts, hstart] at h
  split at h
  · cases h
  rw [walk] at h
  split at h
  · cases h
  split at h
  · cases h
  cases h
  rfl

/-- The log does not get in the way of a step file. -/
theorem find_logFile_ne (h : d.find (Path.stepFile path) = .ok spot) :
    d'.find logFile ≠ .ok spot := by
  intro hlog
  obtain ⟨parts, stem, hparts⟩ := Path.parts_stepFile path
  rw [find, hparts] at h
  split at h
  · cases h
  obtain ⟨before, hlast⟩ := walk_concat h
  have hdots : stem ++ ".steps.json" ≠ ".." := Path.ne_of_length_lt stem (by decide)
  have hhead := Spot.enter_below hdots (hlast.symm.trans (find_logFile hlog))
  exact Path.ne_of_length_lt stem (by decide) (Option.some.inj hhead).symm

theorem read_write_log {found : String} (h : d.read (Path.stepFile path) = .text found) :
    (d.write logFile text).2.read (Path.stepFile path) = .text found := by
  obtain ⟨spot, hfind, hlook⟩ := find_of_read h
  exact read_write_other hfind hlook (find_logFile_ne hfind)

end Disk

end EventLoop.Cli
