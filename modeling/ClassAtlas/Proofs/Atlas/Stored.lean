import ClassAtlas.Proofs.Atlas.Writing
import ClassAtlas.Proofs.Files.Agreement
/-!
# A document in a directory

Where there are no links a document is written under its name in a directory. Apart from that place and the
temporary one beside it no file changes, and another document can be written in its stead.
-/
namespace ClassAtlas.Snapshot

open ClassAtlas.Action

variable {h h' : Host} {here place : Location} {name : String} {bytes : List UInt8}

theorem isName_temporaryName (hname : FileTree.IsName name)
    (hshort : (temporaryName name).utf8ByteSize ≤ FileTree.maxNameBytes) : FileTree.IsName (temporaryName name) := by
  have hchars : (temporaryName name).toList = '.' :: (name.toList ++ ".tmp".toList) := by simp [temporaryName]
  apply FileTree.IsName.of_long
  · simp [hchars]
  · simpa [hchars] using hname.oneName
  · simpa [hchars] using hname.noNul
  · exact hshort

/-- A document has been written under a name in a directory, and what was at its temporary place has gone. -/
structure Stored (h h' : Host) (here : Location) (name : String) (bytes : List UInt8) : Prop where
  room : Room h' here name
  plain : (h.files.at? (here ++ [name])).any Node.isDirectory = false
  besidePlain : (h.files.at? (here ++ [temporaryName name])).any Node.isDirectory = false
  eq : h' = { h with
    files := (h.files.erase (here ++ [temporaryName name])).put (here ++ [name]) (.file bytes)
    logging := h.logging.move (here ++ [temporaryName name]) (here ++ [name]) }

theorem short_above (hpath : (pathOf (here ++ [name])).toString.utf8ByteSize ≤ FileTree.maxPathBytes) :
    (pathOf here).toString.utf8ByteSize ≤ FileTree.maxPathBytes := by
  have habove := FileTree.toString_parent_short (Nat.not_lt.mpr hpath)
  rw [parent_child] at habove
  exact Nat.not_lt.mp habove

theorem room_of_put (ht : h.files.WellFormed) (hhere : h.files.DirectoryAt here)
    (hname : FileTree.IsName name) (hbeside : FileTree.IsName (temporaryName name))
    (hpath : (pathOf (here ++ [name])).toString.utf8ByteSize ≤ FileTree.maxPathBytes)
    (hbesidePath : (pathOf (here ++ [temporaryName name])).toString.utf8ByteSize ≤ FileTree.maxPathBytes)
    (hplain : (h.files.at? (here ++ [name])).any Node.isDirectory = false)
    (hbesidePlain : (h.files.at? (here ++ [temporaryName name])).any Node.isDirectory = false)
    (hfiles : h'.files = (h.files.erase (here ++ [temporaryName name])).put (here ++ [name]) (.file bytes)) :
    Room h' here name := by
  have hapart := Room.place_ne here name
  obtain ⟨locked, hdirectory⟩ := hhere
  have hdirectory' : (h.files.erase (here ++ [temporaryName name])).at? here = some (.directory locked) :=
    (FileTree.at?_erase_of_ne (by simp)).trans hdirectory
  constructor
  case wellFormed =>
    rw [hfiles]
    apply (ht.erase hbesidePlain).put_child hdirectory' hname
    rwa [FileTree.at?_erase_of_ne hapart]
  case directory =>
    rw [hfiles]
    exact ⟨locked, (FileTree.at?_put_of_ne (by simp)).trans hdirectory'⟩
  case named => exact hname
  case besideNamed => exact hbeside
  case free =>
    rw [hfiles]
    exact .inr ⟨bytes, FileTree.at?_put_self (by simp)⟩
  case besideFree =>
    rw [hfiles]
    exact (FileTree.at?_put_of_ne hapart.symm).trans (FileTree.at?_erase_self (by simp))
  case short =>
    intro names hnames
    simp only [List.mem_cons, List.not_mem_nil, or_false] at hnames
    rcases hnames with rfl | rfl | rfl
    · rw [List.append_nil]
      exact short_above hpath
    · exact hpath
    · exact hbesidePath

/-- A document that has been written beside its place is moved to it. -/
theorem stored_of_move {wrote : Host} (ht : h.files.WellFormed) (hlinks : h.files.Linkless)
    (hhere : h.files.DirectoryAt here) (hname : FileTree.IsName name)
    (hwrite : (writeBytes (pathOf (here ++ [temporaryName name])) bytes).on h = (.ok (), wrote))
    (hreplace : (replaceFile (pathOf (here ++ [temporaryName name])) (pathOf (here ++ [name]))).on wrote =
      (.ok (), h')) : Stored h h' here name bytes := by
  obtain ⟨there, hthere, hfree, rfl⟩ := writeBytes_eq hwrite
  obtain ⟨hbesideShort, hbesidePath⟩ := FileTree.short_of_locate (temporaryName_ne_dots name) hthere
  have hbeside := isName_temporaryName hname hbesideShort
  -- There are no links, so all paths lead to the places that they name.
  cases hthere.symm.trans (hlinks.locate_child ht hhere hbeside hbesidePath h.cwd true)
  obtain ⟨locked, hdirectory⟩ := hhere
  have hwellFormed := ht.put_child hdirectory hbeside hfree.not_directory (.file bytes)
  have hlinks' := @FileTree.Linkless.put h.files (here ++ [temporaryName name]) hlinks (.file bytes) rfl
  have hhere' : (h.files.put (here ++ [temporaryName name]) (.file bytes)).DirectoryAt here :=
    ⟨locked, (FileTree.at?_put_of_ne (by simp)).trans hdirectory⟩
  obtain ⟨src, dst, node, hsrc, hdst, _, hnode, hplain, heq⟩ := replaceFile_eq hreplace
  obtain ⟨_, hpath⟩ := FileTree.short_of_locate hname.notDots hdst
  cases hsrc.symm.trans (hlinks'.locate_child hwellFormed hhere' hbeside hbesidePath h.cwd false)
  cases hdst.symm.trans (hlinks'.locate_child hwellFormed hhere' hname hpath h.cwd false)
  cases hnode.symm.trans (FileTree.at?_put_self (by simp))
  have hapart := Room.place_ne here name
  rw [FileTree.at?_put_of_ne hapart] at hplain
  rw [if_neg hapart.symm] at heq
  simp only [FileTree.erase_put] at heq
  refine ⟨?_, hplain, hfree.not_directory, heq⟩
  apply room_of_put ht ⟨locked, hdirectory⟩ hname hbeside hpath hbesidePath hplain hfree.not_directory
  rw [heq]

theorem stored_of_write {s : Snapshot} {p : Path} (ht : h.files.WellFormed) (hlinks : h.files.Linkless)
    (hhere : h.files.DirectoryAt here) (hname : name.utf8ByteSize ≤ FileTree.maxNameBytes → FileTree.IsName name)
    (hrun : (s.write (pathOf (here ++ [name]))).on h = (.ok p, h')) :
    p = pathOf (here ++ [name]) ∧ s.toJson.hasLongNumber = false ∧ Stored h h' here name (Utf8.encode s.text) := by
  obtain ⟨hnumbers, rfl, temporary, ready, wrote, htemporary, hready, hwrite, hreplace⟩ := steps_of_write hrun
  refine ⟨rfl, hnumbers, ?_⟩
  obtain rfl : temporary = pathOf (here ++ [temporaryName name]) := by
    unfold temporaryPath? Path.withName? at htemporary
    rw [name_child] at htemporary
    split at htemporary <;> cases htemporary
    simp [pathOf, temporaryName]
  -- The name is short enough, since the path beside it is followed.
  obtain ⟨there, hthere, _, _⟩ := writeBytes_eq hwrite
  obtain ⟨hshort, hpath⟩ := FileTree.short_of_locate (temporaryName_ne_dots name) hthere
  have hname : FileTree.IsName name := by
    apply hname
    rw [temporaryName, String.utf8ByteSize_append, String.utf8ByteSize_append] at hshort
    omega
  obtain rfl : ready = h := by
    obtain ⟨locked, hdirectory⟩ := hhere
    have hfound := lookup_pathOf ht hdirectory rfl (short_above hpath) h.cwd
    rw [parent_child, on_ensureDirectories (hasNul_pathOf ht hdirectory) (hfound false) (hfound true)] at hready
    exact (Prod.mk.inj hready).2.symm
  exact stored_of_move ht hlinks hhere hname hwrite hreplace

namespace Stored

theorem output (hs : Stored h h' here name bytes) : h'.files.at? (here ++ [name]) = some (.file bytes) := by
  rw [hs.eq]
  exact FileTree.at?_put_self (by simp)

theorem others (hs : Stored h h' here name bytes) (hout : place ≠ here ++ [name])
    (htemporary : place ≠ here ++ [temporaryName name]) : h'.files.at? place = h.files.at? place := by
  rw [hs.eq]
  exact (FileTree.at?_put_of_ne hout).trans (FileTree.at?_erase_of_ne htemporary)

theorem sink (hs : Stored h h' here name bytes) {level : Int} (hsink : Sink.file level (some place) ∈ h'.logging.sinks) :
    Sink.file level (some (if place = here ++ [name] then here ++ [temporaryName name] else place)) ∈
      h.logging.sinks := by
  rw [hs.eq] at hsink
  exact sink_of_move hsink

theorem isSome_eq (hs : Stored h h' here name bytes) (hout : (h.files.at? (here ++ [name])).isSome)
    (hbeside : h.files.at? (here ++ [temporaryName name]) = none) (place : Location) :
    (h'.files.at? place).isSome = (h.files.at? place).isSome := by
  by_cases hplace : place = here ++ [name]
  · rw [hplace, hs.output, hout]
    rfl
  by_cases htemporary : place = here ++ [temporaryName name]
  · rw [htemporary, hs.room.besideFree, hbeside]
  rw [hs.others hplace htemporary]

/-- Trees that agree before agree afterwards, if the places of the document are not read. -/
theorem agrees {o : FileTree} {read : Location → Prop} (hs : Stored h h' here name bytes)
    (hh : o.Agrees read h.files) (hout : ¬ read (here ++ [name])) (hbeside : ¬ read (here ++ [temporaryName name])) :
    o.Agrees read h'.files where
  wellFormed := hs.room.wellFormed
  linkless := by
    rw [hs.eq]
    exact hh.linkless.erase.put rfl
  directories := by
    intro place locked
    rw [← hh.directories]
    -- At both places there was no directory before, and there is none now.
    by_cases hplace : place = here ++ [name]
    · have hplain := hs.plain
      rw [hplace, hs.output]
      refine iff_of_false (by simp) fun hdirectory => ?_
      rw [hdirectory] at hplain
      cases hplain
    by_cases htemporary : place = here ++ [temporaryName name]
    · have hplain := hs.besidePlain
      rw [htemporary, hs.room.besideFree]
      refine iff_of_false (by simp) fun hdirectory => ?_
      rw [hdirectory] at hplain
      cases hplain
    rw [hs.others hplace htemporary]
  read := by
    intro place hread
    have hplace : place ≠ here ++ [name] := by
      rintro rfl
      exact hout hread
    have htemporary : place ≠ here ++ [temporaryName name] := by
      rintro rfl
      exact hbeside hread
    exact (hs.others hplace htemporary).trans (hh.read hread)

end Stored

theorem isSome_of_noted (hnoted : h.Noted h') (place : Location) :
    (h'.files.at? place).isSome = (h.files.at? place).isSome := by
  rw [Bool.eq_iff_iff, Option.isSome_iff_ne_none, Option.isSome_iff_ne_none]
  exact not_congr hnoted.files.at?_eq_none_iff

/-- Where a document is, another one can be written in its stead; nothing else changes but the log. -/
theorem unchanged_of_stored {composed left last : Host} (hroom : Room h here name)
    (hout : (h.files.at? (here ++ [name])).isSome) (hnoted : h.Noted composed)
    (hs : Stored composed left here name bytes) (hlast : left.Noted last) :
    (∀ place, (last.files.at? place).isSome = (h.files.at? place).isSome) ∧
      ∀ place, place ≠ here ++ [name] → (∀ level, Sink.file level (some place) ∉ h.logging.sinks) →
        last.files.at? place = h.files.at? place := by
  have hbeside := (hroom.noted hnoted).besideFree
  constructor
  · intro place
    have hout' : (composed.files.at? (here ++ [name])).isSome := by rwa [isSome_of_noted hnoted]
    rw [isSome_of_noted hlast, hs.isSome_eq hout' hbeside, isSome_of_noted hnoted]
  · intro place hplace hquiet
    have hquiet' : ∀ level, Sink.file level (some place) ∉ left.logging.sinks := by
      intro level hsink
      have hold := hs.sink hsink
      rw [if_neg hplace, hnoted.logging] at hold
      exact hquiet level hold
    have hkept : left.files.at? place = composed.files.at? place := by
      by_cases htemporary : place = here ++ [temporaryName name]
      · rw [htemporary, hs.room.besideFree, hbeside]
      · exact hs.others hplace htemporary
    rw [hlast.apart place hquiet', hkept, hnoted.apart place hquiet]

end ClassAtlas.Snapshot
