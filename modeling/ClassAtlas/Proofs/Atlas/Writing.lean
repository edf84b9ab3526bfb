import ClassAtlas.Atlas.Document
import ClassAtlas.Proofs.Host.Noted
import ClassAtlas.Proofs.Host.Writing
/-!
# The written document

The text goes to a file beside the target, which then takes the target's place. After that the target leads
to the text, unless links get in the way.
-/
namespace ClassAtlas

open ClassAtlas.Action

variable {h h' : Host} {p target temporary : Path} {place : Location} {bytes : List UInt8}

/-- A path leads to a file with certain bytes, and nothing is logged to that file. -/
structure Host.Holds (h : Host) (p : Path) (place : Location) (bytes : List UInt8) : Prop where
  located : h.files.locate h.cwd true p = .ok place
  bytes : h.files.at? place = some (.file bytes)
  quiet : ∀ level, Sink.file level (some place) ∉ h.logging.sinks

theorem Host.Holds.noted (hholds : h.Holds p place bytes) (hnoted : h.Noted h') : h'.Holds p place bytes where
  located := by
    rw [hnoted.cwd, hnoted.files.locate_eq]
    exact hholds.located
  bytes := (hnoted.apart place hholds.quiet).trans hholds.bytes
  quiet level := by
    rw [hnoted.logging]
    exact hholds.quiet level

theorem Host.Holds.lookup (hholds : h.Holds p place bytes) : h.files.lookup h.cwd true p = .ok (place, .file bytes) :=
  FileTree.lookup_of_node hholds.located hholds.bytes

namespace Snapshot

/-- Nothing gets in the way of a file that is written when its directory is there: the temporary file is not on
the way to the directory, the file itself is not on the way of the temporary one, and nothing is logged to what the
temporary one leads to. -/
structure Unhindered (h : Host) (target : Path) : Prop where
  beside : ∀ temporary ∈ temporaryPath? target, ∀ place, h.files.locate h.cwd false temporary = .ok place →
    place ∉ h.files.way h.cwd target.parent
  aside : ∀ temporary ∈ temporaryPath? target, ∀ place, h.files.locate h.cwd false target = .ok place →
    place ∉ h.files.way h.cwd temporary
  quiet : ∀ temporary ∈ temporaryPath? target, ∀ place level, h.files.locate h.cwd true temporary = .ok place →
    Sink.file level (some place) ∉ h.logging.sinks

/-- The name of the temporary file. -/
def temporaryName (name : String) : String := "." ++ name ++ ".tmp"

theorem temporaryName_ne (name : String) : temporaryName name ≠ name := by
  intro hsame
  have hlength := congrArg String.length hsame
  rw [temporaryName, String.length_append, String.length_append] at hlength
  have hlead : ".".length = 1 := by decide
  omega

theorem temporaryName_ne_dots (name : String) : temporaryName name ≠ ".." := by
  intro hdots
  have hlength := congrArg String.length hdots
  rw [temporaryName, String.length_append, String.length_append] at hlength
  have hlead : ".".length = 1 := by decide
  have hend : ".tmp".length = 4 := by decide
  have htwo : "..".length = 2 := by decide
  omega

theorem parts_of_temporaryPath (htemporary : temporaryPath? target = some temporary) :
    target.parts = target.parent.parts ++ [target.name] ∧ temporary.parent = target.parent ∧
      temporary.parts = temporary.parent.parts ++ [temporaryName target.name] := by
  unfold temporaryPath? Path.withName? at htemporary
  split at htemporary
  case isTrue => cases htemporary
  case isFalse hname =>
    cases htemporary
    refine ⟨?_, ?_, ?_⟩
    · rcases List.eq_nil_or_concat target.parts with hnil | ⟨names, last, hconcat⟩
      · exact absurd (by rw [Path.name, hnil]; rfl) hname
      · simp [Path.parent, Path.name, hconcat]
    · simp [Path.parent]
    · simp [Path.parent, temporaryName]

/-- The temporary path has a null character in it where the target has one. -/
theorem hasNul_temporary (htemporary : temporaryPath? target = some temporary) : hasNul temporary = hasNul target := by
  obtain ⟨hparts, hparent, htparts⟩ := parts_of_temporaryPath htemporary
  have hnames : (temporaryName target.name).toList.contains (Char.ofNat 0) = target.name.toList.contains (Char.ofNat 0) := by
    rw [temporaryName, String.toList_append, String.toList_append]
    simp
  rw [hasNul, hasNul, htparts, hparts, hparent, List.any_append, List.any_append, List.any_cons, List.any_cons,
    List.any_nil, hnames]

/-- The steps of a replacement: the bytes are written where the temporary file leads, and then the temporary file
takes the place of the target beside it. -/
structure Replaced (h wrote h' : Host) (temporary target : Path) (bytes : List UInt8) (k : Nat) (here there : Location)
    (node : Node) : Prop where
  beside : h.files.LastIn h.cwd temporary (temporaryName target.name) k here
  last : h.files.LastIn h.cwd target target.name k here
  leads : h.files.locate h.cwd true temporary = .ok there
  written : Wrote h wrote there bytes
  source : wrote.files.at? (here ++ [temporaryName target.name]) = some node
  moved : Moved wrote h' (here ++ [temporaryName target.name]) (here ++ [target.name]) node

theorem replaced_of_move {wrote : Host} (htemporary : temporaryPath? target = some temporary)
    (hwrite : (writeBytes temporary bytes).on h = (.ok (), wrote))
    (hmove : (replaceFile temporary target).on wrote = (.ok (), h')) :
    ∃ k here there node, Replaced h wrote h' temporary target bytes k here there node := by
  obtain ⟨hparts, hparent, htparts⟩ := parts_of_temporaryPath htemporary
  obtain ⟨there, hthere, hwrote⟩ := writeBytes_of_ok hwrite
  obtain ⟨src, dst, node, hsrc, hdst, hdots, hnode, hmoved⟩ := replaceFile_of_ok hmove
  obtain ⟨k, here, hbeside⟩ := FileTree.LastIn.of_locate htparts (temporaryName_ne_dots target.name) hthere
  obtain ⟨_, _, hlast⟩ := FileTree.LastIn.of_locate hparts hdots hdst
  have hlast := hbeside.sibling hparent.symm hparts hdots hlast.short hlast.pathShort
  rw [(hwrote.lastIn hbeside).locate_self] at hsrc
  rw [(hwrote.lastIn hlast).locate_self] at hdst
  cases hsrc
  cases hdst
  have hapart : here ++ [temporaryName target.name] ≠ here ++ [target.name] := fun hsame =>
    temporaryName_ne target.name (List.singleton_inj.mp (List.append_cancel_left hsame))
  exact ⟨k, here, there, node, hbeside, hlast, hthere, hwrote, hnode, hmoved hapart⟩

namespace Replaced

variable {wrote : Host} {k : Nat} {here there : Location} {node : Node}

theorem cwd (hr : Replaced h wrote h' temporary target bytes k here there node) : h'.cwd = h.cwd :=
  hr.moved.cwd.trans hr.written.cwd

theorem others (hr : Replaced h wrote h' temporary target bytes k here there node) {q : Location} (hthere : q ≠ there)
    (hsrc : q ≠ here ++ [temporaryName target.name]) (hdst : q ≠ here ++ [target.name]) :
    h'.files.at? q = h.files.at? q := by
  rw [hr.moved.others q hsrc hdst, hr.written.others q hthere]

/-- The way to the directory is as before. -/
theorem lastIn (hr : Replaced h wrote h' temporary target bytes k here there node)
    (htemporary : temporaryPath? target = some temporary) (hclear : Unhindered h target) :
    h'.files.LastIn h'.cwd target target.name k here := by
  obtain ⟨_, hparent, _⟩ := parts_of_temporaryPath htemporary
  have horigin : FileTree.origin h.cwd temporary = FileTree.origin h.cwd target.parent := by rw [← hparent]; rfl
  rw [hr.cwd]
  refine hr.last.congr fun q hq => congrArg (Option.map _) (hr.others ?_ ?_ ?_)
  · rintro rfl
    exact hr.last.not_mem_trail hr.written.free hq
  · rintro rfl
    exact hclear.beside temporary htemporary _ hr.beside.locate_self (FileTree.mem_way_of_mem_trail hq)
  · rintro rfl
    refine hclear.aside temporary htemporary _ hr.last.locate_self (FileTree.mem_way_of_mem_trail ?_)
    rw [hr.beside.trail_eq, horigin, hparent]
    exact List.mem_append_left _ hq

/-- The bytes are written at the temporary file's own place unless a link stands there. -/
theorem own_iff (hr : Replaced h wrote h' temporary target bytes k here there node) :
    there = here ++ [temporaryName target.name] ↔
      ∀ link, h.files.at? (here ++ [temporaryName target.name]) ≠ some (.link link) := by
  constructor
  · rintro rfl link hlink
    rcases hr.written.free with hnone | ⟨old, hfile⟩
    · cases hnone.symm.trans hlink
    · cases hfile.symm.trans hlink
  · intro hnone
    have hplace := hr.leads.symm.trans (hr.beside.locate_eq fun _ link => hnone link)
    exact Except.ok.inj hplace

theorem node_of_own (hr : Replaced h wrote h' temporary target bytes k here there node)
    (hown : there = here ++ [temporaryName target.name]) : h'.files.at? (here ++ [target.name]) = some (.file bytes) := by
  have hsource := hr.source
  rw [← hown, hr.written.written] at hsource
  rw [hr.moved.node, ← Option.some.inj hsource]

/-- A link at the temporary file's place is what takes the target's place. -/
theorem node_of_link (hr : Replaced h wrote h' temporary target bytes k here there node) {link : String}
    (hlink : h.files.at? (here ++ [temporaryName target.name]) = some (.link link)) :
    h'.files.at? (here ++ [target.name]) = some (.link link) := by
  have hown : there ≠ here ++ [temporaryName target.name] := fun hsame => hr.own_iff.mp hsame link hlink
  rw [hr.moved.node, ← hr.source, hr.written.others _ hown.symm, hlink]

/-- A temporary file at its own place takes the target's place with its bytes. -/
theorem holds_of_own (hr : Replaced h wrote h' temporary target bytes k here there node)
    (htemporary : temporaryPath? target = some temporary) (hclear : Unhindered h target)
    (hown : there = here ++ [temporaryName target.name]) : h'.Holds target (here ++ [target.name]) bytes := by
  have hbytes := hr.node_of_own hown
  refine ⟨(hr.lastIn htemporary hclear).locate_eq fun _ link hlink => ?_, hbytes, fun level hsink => ?_⟩
  · rw [hbytes] at hlink
    cases hlink
  · have hold := hr.moved.logging level _ hsink
    rw [if_pos rfl, hr.written.logging, ← hown] at hold
    exact hclear.quiet temporary htemporary there level hr.leads hold

/-- A temporary file that is a link takes the target's place as a link, and the bytes are where it leads. -/
theorem holds_of_link (hr : Replaced h wrote h' temporary target bytes k here there node)
    (htemporary : temporaryPath? target = some temporary) (hclear : Unhindered h target)
    (hown : there ≠ here ++ [temporaryName target.name]) : h'.Holds target there bytes := by
  -- Otherwise the bytes would have been written at its own place.
  obtain ⟨link, hlink⟩ : ∃ link, h.files.at? (here ++ [temporaryName target.name]) = some (.link link) := by
    by_contra hnone
    exact hown (hr.own_iff.mpr fun link hlink => hnone ⟨link, hlink⟩)
  have hleads := hr.leads
  rw [hr.beside.locate_eq_walk] at hleads
  obtain ⟨m, rfl, hwalk⟩ := FileTree.walk_of_link hr.beside.noDots hr.beside.short hlink hleads
  rw [List.append_nil] at hwalk
  have htarget : there ≠ here ++ [target.name] := by
    rintro rfl
    exact hclear.aside temporary htemporary _ hr.last.locate_self (FileTree.mem_way_of_locate hr.leads)
  have hbytes : h'.files.at? there = some (.file bytes) := by
    rw [hr.moved.others there hown htarget, hr.written.written]
  have hwalk' := FileTree.walk_of_written hr.written.free hbytes m _ _ hwalk fun q hq hthere =>
    congrArg (Option.map _) (hr.others hthere ?_ ?_)
  · have hlast := hr.lastIn htemporary hclear
    have hnode := hr.node_of_link hlink
    refine ⟨?_, hbytes, fun level hsink => ?_⟩
    · rw [hlast.locate_eq_walk, FileTree.walk_link hlast.noDots hlast.short hnode, List.append_nil]
      exact hwalk'
    · have hold := hr.moved.logging level there hsink
      rw [if_neg htarget, hr.written.logging] at hold
      exact hclear.quiet temporary htemporary there level hr.leads hold
  · rintro rfl
    exact FileTree.not_mem_trail_of_link hr.beside.noDots hr.beside.short hlink hwalk hq
  · rintro rfl
    refine hclear.aside temporary htemporary _ hr.last.locate_self (FileTree.mem_way_of_mem_trail ?_)
    rw [hr.beside.trail_eq, FileTree.trail_link hr.beside.noDots hr.beside.short hlink, List.append_nil]
    exact List.mem_append_right _ (List.mem_cons_of_mem _ hq)

end Replaced

/-- Writing beside the target and replacing it leaves the bytes where the target leads. -/
theorem holds_of_move {wrote : Host} (hclear : Unhindered h target)
    (htemporary : temporaryPath? target = some temporary)
    (hwrite : (writeBytes temporary bytes).on h = (.ok (), wrote))
    (hmove : (replaceFile temporary target).on wrote = (.ok (), h')) : ∃ place, h'.Holds target place bytes := by
  obtain ⟨k, here, there, node, hreplaced⟩ := replaced_of_move htemporary hwrite hmove
  by_cases hown : there = here ++ [temporaryName target.name]
  · exact ⟨_, hreplaced.holds_of_own htemporary hclear hown⟩
  · exact ⟨_, hreplaced.holds_of_link htemporary hclear hown⟩

/-- The steps by which a document comes to its place. -/
theorem steps_of_write {s : Snapshot} (hrun : (s.write target).on h = (.ok p, h')) :
    s.toJson.hasLongNumber = false ∧ p = target ∧ ∃ temporary ready wrote, temporaryPath? target = some temporary ∧
      (ensureDirectories target.parent).on h = (.ok (), ready) ∧
      (writeBytes temporary (Utf8.encode s.text)).on ready = (.ok (), wrote) ∧
      (replaceFile temporary target).on wrote = (.ok (), h') := by
  rw [write] at hrun
  cases hlong : s.toJson.hasLongNumber with
  | true =>
    rw [hlong] at hrun
    cases hrun
  | false =>
    rw [hlong] at hrun
    obtain ⟨_, ready, hready, hrun⟩ := bind_eq_ok hrun
    cases htemporary : temporaryPath? target with
    | none =>
      rw [htemporary] at hrun
      cases hrun
    | some temporary =>
      rw [htemporary] at hrun
      rcases attempt_bind_eq_ok hrun with ⟨_, last, hmove, hrun⟩ | ⟨f, last, _, hrun⟩
      · cases hrun
        obtain ⟨_, wrote, hwrite, hreplace⟩ := bind_eq_ok hmove
        exact ⟨rfl, rfl, temporary, ready, wrote, rfl, hready, hwrite, hreplace⟩
      · cases htrouble : f.isFileTrouble with
        | true =>
          simp only [htrouble] at hrun
          obtain ⟨_, _, _, hrun⟩ := bind_eq_ok hrun
          cases hrun
        | false =>
          simp only [htrouble] at hrun
          cases hrun

/-- Writing a document makes the directory of it and then leaves the text where the target leads. -/
theorem write_of_ok {s : Snapshot} (hrun : (s.write target).on h = (.ok p, h')) : p = target ∧
    ∃ ready, (ensureDirectories target.parent).on h = (.ok (), ready) ∧
      (Unhindered ready target → ∃ place, h'.Holds target place (Utf8.encode s.text)) := by
  obtain ⟨_, hsame, temporary, ready, wrote, htemporary, hready, hwrite, hreplace⟩ := steps_of_write hrun
  exact ⟨hsame, ready, hready, fun hclear => holds_of_move hclear htemporary hwrite hreplace⟩

/-- A document is written where the directory for it can be made, the temporary file leads to a file or to nothing,
and the target is no directory. -/
theorem write_returns {s : Snapshot} {ready : Host} {k : Nat} {here there : Location}
    (hnumbers : s.toJson.hasLongNumber = false) (hensured : (ensureDirectories target.parent).on h = (.ok (), ready))
    (htemporary : temporaryPath? target = some temporary) (hnul : hasNul temporary = false)
    (hbeside : ready.files.LastIn ready.cwd temporary (temporaryName target.name) k here)
    (hlast : ready.files.LastIn ready.cwd target target.name k here)
    (hleads : ready.files.locate ready.cwd true temporary = .ok there) (hfree : ready.files.Free there)
    (hplain : (ready.files.at? (here ++ [target.name])).any Node.isDirectory = false) :
    ∃ last, (s.write target).on h = (.ok target, last) := by
  obtain ⟨_, wrote, hwrite⟩ : (writeBytes temporary (Utf8.encode s.text)).Returns ready :=
    writeBytes_returns hnul hleads hfree
  obtain ⟨place, hplace, hwrote⟩ := writeBytes_of_ok hwrite
  obtain rfl := Except.ok.inj (hleads.symm.trans hplace)
  obtain ⟨node, hnode, hkind⟩ : ∃ node, wrote.files.at? (here ++ [temporaryName target.name]) = some node ∧
      node.isDirectory = false := by
    by_cases hown : there = here ++ [temporaryName target.name]
    · exact ⟨_, hown ▸ hwrote.written, rfl⟩
    · obtain ⟨link, hlink⟩ : ∃ link, ready.files.at? (here ++ [temporaryName target.name]) = some (.link link) := by
        by_contra hnone
        exact hown (Except.ok.inj (hleads.symm.trans (hbeside.locate_eq fun _ link hlink => hnone ⟨link, hlink⟩)))
      exact ⟨_, (hwrote.others _ (Ne.symm hown)).trans hlink, rfl⟩
  have hplain' : (wrote.files.at? (here ++ [target.name])).any Node.isDirectory = false := by
    by_cases hsame : there = here ++ [target.name]
    · rw [← hsame, hwrote.written]
      rfl
    · rw [hwrote.others _ (Ne.symm hsame), hplain]
  have hnames : ¬ (target.name = ".." ∨ target.parts = [] ∨ temporary.name = "..") := by
    have hname : temporary.name = temporaryName target.name := by
      rw [Path.name, hbeside.parts, List.getLast?_concat, Option.getD_some]
    rw [hname, hlast.parts]
    simp [hlast.noDots, hbeside.noDots]
  have hnul' := (hasNul_temporary htemporary).symm.trans hnul
  obtain ⟨_, last, hmove⟩ := replaceFile_returns hnul hnul' (hwrote.lastIn hbeside).locate_self
    (hwrote.lastIn hlast).locate_self hnames hnode hkind hplain'
  have hattempt := on_attempt (writeBytes temporary (Utf8.encode s.text) >>= fun _ => replaceFile temporary target) ready
  rw [on_bind_of_ok hwrite, hmove] at hattempt
  refine ⟨last, ?_⟩
  rw [write, hnumbers]
  simp only [Bool.false_eq_true, if_false]
  rw [on_bind_of_ok hensured, htemporary]
  dsimp only
  rw [on_bind_of_ok hattempt]
  rfl

/-! ## Room for a document -/

/-- A directory in which nothing gets in the way of a document under a name. -/
structure Room (h : Host) (here : Location) (name : String) : Prop where
  wellFormed : h.files.WellFormed
  directory : ∃ locked, h.files.at? here = some (.directory locked)
  named : FileTree.IsName name
  besideNamed : FileTree.IsName (temporaryName name)
  free : h.files.Free (here ++ [name])
  besideFree : h.files.at? (here ++ [temporaryName name]) = none
  short : ∀ names ∈ [[], [name], [temporaryName name]],
    (pathOf (here ++ names)).toString.utf8ByteSize ≤ FileTree.maxPathBytes

namespace Room

variable {here : Location} {name : String}

theorem noted (hroom : Room h here name) (hnoted : h.Noted h') : Room h' here name where
  wellFormed := hnoted.wellFormed hroom.wellFormed
  directory := by
    obtain ⟨locked, hhere⟩ := hroom.directory
    exact ⟨locked, (hnoted.files.at?_iff rfl).mpr hhere⟩
  named := hroom.named
  besideNamed := hroom.besideNamed
  free := hnoted.files.free_iff.mpr hroom.free
  besideFree := hnoted.files.at?_eq_none_iff.mpr hroom.besideFree
  short := hroom.short

theorem lastIn (hroom : Room h here name) :
    h.files.LastIn h.cwd (pathOf (here ++ [name])) name FileTree.maxLinks here ∧
      h.files.LastIn h.cwd (pathOf (here ++ [temporaryName name])) (temporaryName name) FileTree.maxLinks here := by
  obtain ⟨locked, hhere⟩ := hroom.directory
  exact ⟨hroom.wellFormed.lastIn hhere hroom.named (hroom.short _ (by simp)),
    hroom.wellFormed.lastIn hhere hroom.besideNamed (hroom.short _ (by simp))⟩

theorem locate_temporary (hroom : Room h here name) :
    h.files.locate h.cwd true (pathOf (here ++ [temporaryName name])) = .ok (here ++ [temporaryName name]) := by
  refine hroom.lastIn.2.locate_eq fun _ link hlink => ?_
  rw [hroom.besideFree] at hlink
  cases hlink

theorem temporaryPath_eq (hroom : Room h here name) :
    temporaryPath? (pathOf (here ++ [name])) = some (pathOf (here ++ [temporaryName name])) := by
  rw [temporaryPath?, Path.withName?, name_child, if_neg hroom.named.notEmpty]
  simp [pathOf, temporaryName]

theorem place_ne (here : Location) (name : String) : here ++ [name] ≠ here ++ [temporaryName name] := fun hsame =>
  temporaryName_ne name (List.singleton_inj.mp (List.append_cancel_left hsame)).symm

theorem found (hroom : Room h here name) : hasNul (pathOf (here ++ [name])).parent = false ∧ ∃ locked, ∀ follow,
    h.files.lookup h.cwd follow (pathOf (here ++ [name])).parent = .ok (here, .directory locked) := by
  obtain ⟨locked, hhere⟩ := hroom.directory
  have hshort := hroom.short [] List.mem_cons_self
  rw [List.append_nil] at hshort
  rw [parent_child]
  exact ⟨hasNul_pathOf hroom.wellFormed hhere, locked, lookup_pathOf hroom.wellFormed hhere rfl hshort h.cwd⟩

theorem on_ensureDirectories (hroom : Room h here name) :
    (ensureDirectories (pathOf (here ++ [name])).parent).on h = (.ok (), h) := by
  obtain ⟨hnul, locked, hfound⟩ := hroom.found
  exact Action.on_ensureDirectories hnul (hfound false) (hfound true)

/-- Where there is room a document is written, unless a number in it is too long. -/
theorem on_write (hroom : Room h here name) {s : Snapshot} (hnumbers : s.toJson.hasLongNumber = false) : ∃ last,
    (s.write (pathOf (here ++ [name]))).on h = (.ok (pathOf (here ++ [name])), last) ∧
      last.files.at? (here ++ [name]) = some (.file (Utf8.encode s.text)) := by
  obtain ⟨locked, hhere⟩ := hroom.directory
  obtain ⟨htarget, hsource⟩ := hroom.lastIn
  have hname : (pathOf (here ++ [name])).name = name := name_child here name
  have hnul := hasNul_child hroom.wellFormed hhere hroom.besideNamed
  have hplace := hroom.locate_temporary
  obtain ⟨last, hrun⟩ := write_returns hnumbers
    hroom.on_ensureDirectories hroom.temporaryPath_eq hnul (by rwa [hname]) (by rwa [hname]) hplace
    (.inl hroom.besideFree) (by rw [hname]; exact hroom.free.not_directory)
  refine ⟨last, hrun, ?_⟩
  obtain ⟨_, _, temporary, ready, wrote, htemporary, hready, hwrite, hmove⟩ := steps_of_write hrun
  cases hroom.on_ensureDirectories.symm.trans hready
  cases hroom.temporaryPath_eq.symm.trans htemporary
  obtain ⟨k, above, there, node, hreplaced⟩ := replaced_of_move htemporary hwrite hmove
  have hlast := hreplaced.last.locate_self
  rw [htarget.locate_self, hname] at hlast
  obtain rfl : here = above := List.append_cancel_right (Except.ok.inj hlast)
  have hown : there = here ++ [temporaryName (pathOf (here ++ [name])).name] := by
    rw [hname]
    exact Except.ok.inj (hreplaced.leads.symm.trans hplace)
  have hbytes := hreplaced.node_of_own hown
  rwa [hname] at hbytes

theorem not_mem_way (hroom : Room h here name) {q : Location}
    (hfree : h.files.Free q) (hne : q ≠ here) :
    q ∉ h.files.way h.cwd (pathOf (here ++ [name])).parent := by
  intro hmem
  rcases List.mem_append.mp hmem with hway | hend
  · exact hroom.lastIn.1.not_mem_trail hfree hway
  · obtain ⟨_, locked, hfound⟩ := hroom.found
    rw [(FileTree.locate_of_lookup (hfound true)).1] at hend
    exact hne (List.mem_singleton.mp hend)

/-- Where there is room nothing gets in the way, if the temporary file is not logged to. -/
theorem unhindered (hroom : Room h here name)
    (hquiet : ∀ level, Sink.file level (some (here ++ [temporaryName name])) ∉ h.logging.sinks) :
    Unhindered h (pathOf (here ++ [name])) := by
  obtain ⟨htarget, hsource⟩ := hroom.lastIn
  have hplace := hroom.locate_temporary
  have hway : h.files.way h.cwd (pathOf (here ++ [temporaryName name])) =
      h.files.trail true FileTree.maxLinks (FileTree.origin h.cwd (pathOf (here ++ [name])))
        (pathOf (here ++ [name])).parent.parts ++
          [here ++ [temporaryName name], here ++ [temporaryName name]] := by
    have hparent : (pathOf (here ++ [temporaryName name])).parent = (pathOf (here ++ [name])).parent := by
      simp [pathOf, Path.parent]
    have hview : h.files.view (here ++ [temporaryName name]) = none := by rw [FileTree.view, hroom.besideFree]; rfl
    rw [FileTree.way, hplace, hsource.trail_eq, FileTree.trail_step hsource.noDots hsource.short, hview, hparent,
      List.append_assoc]
    rfl
  refine ⟨fun temporary htemporary place hplace => ?_, fun temporary htemporary place hplace => ?_,
    fun temporary htemporary place level hplaced => ?_⟩
  · rw [hroom.temporaryPath_eq] at htemporary
    cases htemporary
    rw [hsource.locate_self] at hplace
    cases hplace
    exact hroom.not_mem_way (.inl hroom.besideFree) (by simp)
  · rw [hroom.temporaryPath_eq] at htemporary
    cases htemporary
    rw [htarget.locate_self] at hplace
    cases hplace
    rw [hway]
    intro hmem
    rcases List.mem_append.mp hmem with htrail | hend
    · exact htarget.not_mem_trail hroom.free htrail
    · simp only [List.mem_cons, List.not_mem_nil, or_false, or_self] at hend
      exact place_ne here name hend
  · rw [hroom.temporaryPath_eq] at htemporary
    cases htemporary
    rw [hplace] at hplaced
    cases hplaced
    exact hquiet level

end Room

end Snapshot
end ClassAtlas
