import Gwems.Library.Text

/-!
# Files and places

What `java.io.File` says of a file system: what is at a place, what is in a directory, and which
place a path is for. `FileSystem` is a tree (`listed`, `parent`, `named`), and stays one when a file
is changed (`FileSystem.write`).
-/

namespace Gwems

namespace HttpHandler

/-! ### Files -/

/-- What is at a place of the file system: a directory with the names in it, a file, or anything
else. -/
inductive Entry
  | directory (canRead : Bool) (names : List String)
  | file (canRead : Bool) (content : List UInt8) (lastModified : ℤ)
  | other (canRead : Bool)
deriving DecidableEq

/-- `f.canRead()`. -/
def Entry.canRead : Entry → Bool
  | directory canRead _ | file canRead _ _ | other canRead => canRead

/-- `f.lastModified()` of a file. -/
def Entry.lastModified : Entry → Option ℤ
  | file _ _ lastModified => some lastModified
  | directory _ _ | other _ => none

/-- A file system. A place is the list of the names on the way to it. -/
structure FileSystem where
  entry : List String → Option Entry
  /-- A directory lists what is in it. -/
  listed : ∀ {place canRead names}, entry place = some (.directory canRead names) →
    ∀ name, name ∈ names ↔ (entry (place ++ [name])).isSome
  parent : ∀ {place name}, (entry (place ++ [name])).isSome →
    ∃ canRead names, entry place = some (.directory canRead names)
  named : ∀ {place name}, (entry (place ++ [name])).isSome → name ≠ "" ∧ '/' ∉ name.toList

/-- The names in a directory. -/
def Entry.names : Entry → List String
  | directory _ names => names
  | file _ _ _ | other _ => []

/-- What a list of places has at a place. -/
def lookup (l : List (List String × Entry)) (place : List String) : Option Entry :=
  (l.find? fun p => p.1 = place).map Prod.snd

/-- Directories list what is in them, and everything is in a directory. -/
def wellFormed (l : List (List String × Entry)) : Bool :=
  l.all fun p => p.2.names.all (fun name => (lookup l (p.1 ++ [name])).isSome) &&
    p.1.getLast?.all fun name => name ≠ "" && !name.toList.contains '/' &&
      (lookup l p.1.dropLast).any fun entry => entry.names.contains name

theorem mem_of_lookup {l : List (List String × Entry)} {place : List String} {entry : Entry}
    (h : lookup l place = some entry) : (place, entry) ∈ l := by
  obtain ⟨p, hp, rfl⟩ := Option.map_eq_some_iff.mp h
  have hplace := List.find?_some hp
  obtain rfl : p.1 = place := of_decide_eq_true hplace
  exact List.mem_of_find?_eq_some hp

/-- What a place in a list is in. -/
theorem of_lookup_append {l : List (List String × Entry)} (h : wellFormed l = true)
    {place : List String} {name : String} (hname : (lookup l (place ++ [name])).isSome) :
    (name ≠ "" ∧ '/' ∉ name.toList) ∧
      ∃ canRead names, lookup l place = some (.directory canRead names) ∧ name ∈ names := by
  obtain ⟨entry, hentry⟩ := Option.isSome_iff_exists.mp hname
  have hplace := (Bool.and_eq_true_iff.mp (List.all_eq_true.mp h _ (mem_of_lookup hentry))).2
  simp only [List.getLast?_append, List.getLast?_singleton, Option.some_or, Option.all_some,
    List.dropLast_concat, Bool.and_eq_true, decide_eq_true_eq, Bool.not_eq_true',
    List.contains_eq_mem, decide_eq_false_iff_not] at hplace
  obtain ⟨⟨hne, hslash⟩, hparent⟩ := hplace
  obtain ⟨parent, hparent, hmem⟩ := (Option.any_eq_true _ _).mp hparent
  refine ⟨⟨hne, hslash⟩, ?_⟩
  cases parent with
  | directory canRead names => exact ⟨canRead, names, hparent, of_decide_eq_true hmem⟩
  | file canRead content lastModified => cases hmem
  | other canRead => cases hmem

/-- The file system of a list of places. -/
def FileSystem.ofList (l : List (List String × Entry)) (h : wellFormed l = true) : FileSystem where
  entry := lookup l
  listed {place canRead names} hplace name := by
    constructor
    · intro hname
      have hall := (Bool.and_eq_true_iff.mp (List.all_eq_true.mp h _ (mem_of_lookup hplace))).1
      exact List.all_eq_true.mp hall name hname
    · intro hname
      obtain ⟨-, canRead', names', hplace', hmem⟩ := of_lookup_append h hname
      obtain ⟨-, rfl⟩ := Entry.directory.inj (Option.some.inj (hplace.symm.trans hplace'))
      exact hmem
  parent hname :=
    have ⟨_, canRead, names, hplace, _⟩ := of_lookup_append h hname
    ⟨canRead, names, hplace⟩
  named hname := (of_lookup_append h hname).1

/-- The names in a path: a `File` drops empty ones. -/
def components (path : String) : List String :=
  ((path.toList.splitOn '/').filter (· ≠ [])).map String.ofList

/-- `file.getPath()`. -/
def getPath (path : String) : String :=
  (if path.toList.head? = some '/' then "/" else "") ++ "/".intercalate (components path)

/-- `file.isHidden()`: the name begins with a dot. -/
def isHidden (place : List String) : Bool :=
  place.getLast?.any fun name => name.toList.head? = some '.'

/-! ### Places -/

@[simp] theorem components_empty : components "" = [] := rfl

theorem components_join (a b : String) :
    components (a ++ "/" ++ b) = components a ++ components b := by
  have hlist : (a ++ "/" ++ b).toList = a.toList ++ '/' :: b.toList := by simp
  rw [components, hlist, List.splitOn_append_cons_self, List.filter_append, List.map_append]
  rfl

theorem components_slash (b : String) : components ("/" ++ b) = components b := by
  rw [← String.empty_append (s := "/"), components_join, components_empty, List.nil_append]

theorem components_append_slash (a : String) : components (a ++ "/") = components a := by
  rw [← String.append_empty (s := a ++ "/"), components_join, components_empty, List.append_nil]

/-- The names in a path are not empty, and have no slash. -/
theorem of_mem_components {path name : String} (h : name ∈ components path) :
    name ≠ "" ∧ '/' ∉ name.toList := by
  obtain ⟨l, hl, rfl⟩ := List.mem_map.mp h
  obtain ⟨hmem, hne⟩ := List.mem_filter.mp hl
  rw [String.toList_ofList]
  refine ⟨fun hempty => ?_, Text.notMem_of_mem_splitOn hmem⟩
  rw [← String.toList_inj, String.toList_ofList] at hempty
  exact of_decide_eq_true hne hempty

/-- A path that is written name by name. -/
def pathOf (place : List String) : String := "/" ++ "/".intercalate place

/-- Names that can stand in a path. -/
def Proper (place : List String) : Prop := ∀ name ∈ place, name ≠ "" ∧ '/' ∉ name.toList

theorem splitOn_intercalate {place : List String} (h : Proper place) (hne : place ≠ []) :
    ("/".intercalate place).toList.splitOn '/' = place.map String.toList := by
  rw [String.toList_intercalate]
  exact List.splitOn_intercalate '/' (by simpa using fun name hname => (h name hname).2)
    (by simpa using hne)

theorem components_intercalate {place : List String} (h : Proper place) :
    components ("/".intercalate place) = place := by
  rcases eq_or_ne place [] with rfl | hne
  · rfl
  · have hfilter : (place.map String.toList).filter (· ≠ []) = place.map String.toList := by
      refine List.filter_eq_self.mpr fun l hl => ?_
      obtain ⟨name, hname, rfl⟩ := List.mem_map.mp hl
      have hempty := (h name hname).1
      rw [← String.toList_inj.ne] at hempty
      exact decide_eq_true hempty
    rw [components, splitOn_intercalate h hne, hfilter, List.map_map]
    exact List.map_id'' (fun name => String.ofList_toList) place

theorem components_pathOf {place : List String} (h : Proper place) :
    components (pathOf place) = place := by
  rw [pathOf, components_slash, components_intercalate h]

/-- The names on the way to something are proper. -/
theorem FileSystem.proper (files : FileSystem) (base : List String) {place : List String}
    (h : (files.entry (base ++ place)).isSome) : Proper place := by
  induction place using List.reverseRecOn with
  | nil => exact nofun
  | append_singleton place name ih =>
    rw [← List.append_assoc] at h
    obtain ⟨canRead, names, hdir⟩ := files.parent h
    intro n hn
    rcases List.mem_append.mp hn with hn | hn
    · exact ih (by rw [hdir]; rfl) n hn
    · rw [List.mem_singleton.mp hn]
      exact files.named h

/-! ### Changes -/

/-- A file gets a new content, and the time as that of its last change. -/
def FileSystem.write (files : FileSystem) (place : List String) (content : List UInt8) (time : ℤ) :
    FileSystem :=
  match h : files.entry place with
  | some (.file canRead _ _) =>
    have hother : ∀ {p canRead' names},
        Function.update files.entry place (some (.file canRead content time)) p =
          some (.directory canRead' names) → files.entry p = some (.directory canRead' names) := by
      intro p canRead' names hp
      by_cases heq : p = place
      · rw [heq, Function.update_self] at hp
        cases hp
      · rwa [Function.update_of_ne heq] at hp
    have hsome : ∀ p,
        (Function.update files.entry place (some (.file canRead content time)) p).isSome =
          (files.entry p).isSome := by
      intro p
      by_cases heq : p = place
      · rw [heq, Function.update_self, h]
        rfl
      · rw [Function.update_of_ne heq]
    { entry := Function.update files.entry place (some (.file canRead content time))
      listed := fun hp name => by
        rw [hsome]
        exact files.listed (hother hp) name
      parent := fun hname => by
        rw [hsome] at hname
        obtain ⟨canRead', names, hdirectory⟩ := files.parent hname
        refine ⟨canRead', names, ?_⟩
        rw [Function.update_of_ne]
        · exact hdirectory
        · rintro rfl
          rw [h] at hdirectory
          cases hdirectory
      named := fun hname => files.named (hsome _ ▸ hname) }
  | _ => files

theorem FileSystem.write_of_file {files : FileSystem} {place : List String} {canRead : Bool}
    {content : List UInt8} {lastModified : ℤ}
    (h : files.entry place = some (.file canRead content lastModified)) (content' : List UInt8)
    (time : ℤ) : (files.write place content' time).entry =
      Function.update files.entry place (some (.file canRead content' time)) := by
  rw [write]
  split
  next canRead' _ _ h' =>
    obtain ⟨rfl, -, -⟩ := Entry.file.inj (Option.some.inj (h.symm.trans h'))
    rfl
  next hnone => exact absurd h (hnone _ _ _)

theorem FileSystem.write_of_ne {files : FileSystem} {place place' : List String}
    (hne : place' ≠ place) (content : List UInt8) (time : ℤ) :
    (files.write place content time).entry place' = files.entry place' := by
  rw [write]
  split
  next => exact Function.update_of_ne hne ..
  next => rfl

/-- A file is what it was, or has been changed now. -/
theorem FileSystem.of_write {files : FileSystem} {place place' : List String}
    {content content' : List UInt8} {time lastModified : ℤ} {canRead : Bool}
    (h : (files.write place content time).entry place' =
      some (.file canRead content' lastModified)) :
    files.entry place' = some (.file canRead content' lastModified) ∨ lastModified = time := by
  rw [write] at h
  split at h
  next =>
    by_cases heq : place' = place
    · rw [heq] at h
      have hfile := (Function.update_self ..).symm.trans h
      exact .inr (Entry.file.inj (Option.some.inj hfile)).2.2.symm
    · exact .inl ((Function.update_of_ne heq ..).symm.trans h)
  next => exact .inl h

end HttpHandler

end Gwems
