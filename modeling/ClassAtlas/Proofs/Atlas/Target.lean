import ClassAtlas.Proofs.Atlas.Undoing
/-!
# What a written document touches

A document that is written replaces its target, and nothing else, when the path beside it that the text goes to first
is no link. Through a link there the text would be written over another file, and the link would become the target.
-/
namespace ClassAtlas.Snapshot

open ClassAtlas.Action

variable {h h' : Host} {p target temporary : Path} {bytes : List UInt8}

/-- Of all that was there before, only the target and the file beside it have changed: the target is a file with the
bytes, and there is nothing beside it. -/
structure TouchesOnly (h after : Host) (target temporary : Path) (place beside : Location) (bytes : List UInt8) :
    Prop where
  written : after.files.lookup after.cwd false target = .ok (place, .file bytes)
  cleared : after.Vacant temporary
  others : ∀ q node, h.files.at? q = some node → q ≠ place → q ≠ beside → after.files.at? q = some node

/-- Where a document goes: the path beside the target that takes the text first, and the places of the two once the
directory for them is made. -/
structure Goes (h ready : Host) (target temporary : Path) (place beside : Location) : Prop where
  named : temporaryPath? target = some temporary
  made : (ensureDirectories target.parent).on h = (.ok (), ready)
  located : ready.files.locate ready.cwd false target = .ok place
  aside : ready.files.locate ready.cwd false temporary = .ok beside

/-- The places that are looked at on the way to the directory of a path. -/
def wayAbove (h : Host) (p : Path) : List Location :=
  h.files.trail true FileTree.maxLinks (FileTree.origin h.cwd p) p.parent.parts

namespace Replaced

variable {wrote : Host} {k : Nat} {here there : Location} {node : Node}

/-- The way to the directory of the target is as before when the target itself does not stand on it. -/
theorem lastIn_of_own (hr : Replaced h wrote h' temporary target bytes k here there node)
    (hown : there = here ++ [temporaryName target.name])
    (hclear : here ++ [target.name] ∉ wayAbove h target)
    {q : Path} {name : String} (hq : h.files.LastIn h.cwd q name k here) (hparent : q.parent = target.parent) :
    h'.files.LastIn h'.cwd q name k here := by
  have horigin : FileTree.origin h.cwd q = FileTree.origin h.cwd target := by
    have hanchor : q.anchor = target.anchor := (Path.mk.injEq .. ▸ hparent).1
    rw [FileTree.origin, FileTree.origin, Path.isAbsolute, Path.isAbsolute, hanchor]
  rw [hr.cwd]
  refine hq.congr fun place hplace => congrArg (Option.map _) (hr.others ?_ ?_ ?_)
  · rintro rfl
    exact hq.not_mem_trail hr.written.free hplace
  · rw [← hown]
    rintro rfl
    exact hq.not_mem_trail hr.written.free hplace
  · rintro rfl
    rw [horigin, hparent] at hplace
    exact hclear hplace

/-- A target that stood on the way to its own directory blocks that way as a file. -/
theorem blocked_of_own (hr : Replaced h wrote h' temporary target bytes k here there node)
    (hown : there = here ++ [temporaryName target.name])
    (hway : here ++ [target.name] ∈ wayAbove h target)
    (l : Nat) (elsewhere : Location) : ¬ h'.files.LastIn h'.cwd target target.name l elsewhere := by
  intro hlast
  refine hlast.not_mem_trail (.inr ⟨bytes, hr.node_of_own hown⟩) ?_
  rw [hr.cwd]
  refine FileTree.mem_trail_of_views _ _ _ hway fun q hq hne => congrArg (Option.map _) (hr.others ?_ ?_ hne)
  · rintro rfl
    exact hr.last.not_mem_trail hr.written.free hq
  · rw [← hown]
    rintro rfl
    exact hr.last.not_mem_trail hr.written.free hq

/-- The text goes to the target and nothing else changes when it is written at the temporary file's own place. -/
theorem touchesOnly_of_own (hr : Replaced h wrote h' temporary target bytes k here there node)
    (htemporary : temporaryPath? target = some temporary)
    (hmove : (replaceFile temporary target).on wrote = (.ok (), h'))
    (hown : there = here ++ [temporaryName target.name]) (hclear : here ++ [target.name] ∉ wayAbove h target) :
    TouchesOnly h h' target temporary (here ++ [target.name]) (here ++ [temporaryName target.name]) bytes := by
  obtain ⟨_, hparent, _⟩ := parts_of_temporaryPath htemporary
  have hapart : here ++ [temporaryName target.name] ≠ here ++ [target.name] := fun hsame =>
    temporaryName_ne target.name (List.singleton_inj.mp (List.append_cancel_left hsame))
  have hgone : h'.files.at? (here ++ [temporaryName target.name]) = none :=
    gone_of_replaceFile hmove (hr.written.lastIn hr.beside).locate_self (hr.written.lastIn hr.last).locate_self hapart
      (by simp)
  have hlast := hr.lastIn_of_own hown hclear hr.last rfl
  have hbeside := hr.lastIn_of_own hown hclear hr.beside hparent
  refine ⟨FileTree.lookup_of_node hlast.locate_self (hr.node_of_own hown), fun found hfound => ?_,
    fun q node hnode hplace haside => ?_⟩
  · rw [FileTree.lookup_of_nothing hbeside.locate_self hgone] at hfound
    cases hfound
  · rw [hr.others (hown ▸ haside) haside hplace, hnode]

/-- A link that takes the target's place, or a target that blocks the way to itself, is not the file that was meant. -/
theorem own_of_written (hr : Replaced h wrote h' temporary target bytes k here there node)
    (htemporary : temporaryPath? target = some temporary)
    (hwritten : h'.files.lookup h'.cwd false target = .ok (here ++ [target.name], .file bytes)) :
    there = here ++ [temporaryName target.name] ∧ here ++ [target.name] ∉ wayAbove h target := by
  obtain ⟨hparts, _, _⟩ := parts_of_temporaryPath htemporary
  obtain ⟨hlocated, hbytes⟩ := FileTree.locate_of_lookup hwritten
  have hown : there = here ++ [temporaryName target.name] := by
    refine hr.own_iff.mpr fun link hlink => ?_
    cases hbytes.symm.trans (hr.node_of_link hlink)
  refine ⟨hown, fun hway => ?_⟩
  obtain ⟨l, elsewhere, hlast⟩ := FileTree.LastIn.of_locate hparts hr.last.noDots hlocated
  exact hr.blocked_of_own hown hway l elsewhere hlast

end Replaced

/-- A written document has touched nothing but its target exactly when there was no link at the temporary path, and the
target itself did not stand on the way to its own directory. -/
theorem write_touches_only_iff {s : Snapshot} (hh : h.files.Housed h.cwd)
    (hrun : (s.write target).on h = (.ok p, h')) :
    ∃ temporary ready place beside, Goes h ready target temporary place beside ∧
      (TouchesOnly h h' target temporary place beside (Utf8.encode s.text) ↔
        (∀ link, h.files.at? beside ≠ some (.link link)) ∧ place ∉ wayAbove ready target) := by
  obtain ⟨_, _, temporary, ready, wrote, htemporary, hmade, hwrite, hmove⟩ := steps_of_write hrun
  obtain ⟨hextends, _⟩ := makeDirectories_spec hh hmade
  obtain ⟨k, here, there, node, hr⟩ := replaced_of_move htemporary hwrite hmove
  -- The directories that were made are no links.
  have hlinks : (∀ link, ready.files.at? (here ++ [temporaryName target.name]) ≠ some (.link link)) ↔
      ∀ link, h.files.at? (here ++ [temporaryName target.name]) ≠ some (.link link) := by
    refine forall_congr' fun link => not_congr ⟨fun hlink => ?_, hextends.kept⟩
    rcases hextends.fewer (here ++ [temporaryName target.name]) with hsame | hnone
    · rw [hsame, hlink]
    · cases (hextends.made hnone hlink).1
  refine ⟨temporary, ready, _, _, ⟨htemporary, hmade, hr.last.locate_self, hr.beside.locate_self⟩, ?_⟩
  rw [← hlinks, ← hr.own_iff]
  constructor
  · exact fun htouches => hr.own_of_written htemporary htouches.written
  · rintro ⟨hown, hclear⟩
    obtain ⟨hwritten, hcleared, hothers⟩ := hr.touchesOnly_of_own htemporary hmove hown hclear
    exact ⟨hwritten, hcleared, fun q node hnode => hothers q node (hextends.kept hnode)⟩

/-! ## A directory with a document in it -/

/-- A document without classes. -/
def bare : Snapshot := ⟨formatVersion, "2024-05-10T12:00:00.000Z", ⟨"demo", "", "typescript"⟩, [], []⟩

theorem lastIn_out {t : FileTree} (ht : t.WellFormed) (hout : t.at? ["out"] = some (.directory false)) :
    t.LastIn [] (pathOf ["out", "uml.json"]) "uml.json" FileTree.maxLinks ["out"] ∧
      t.LastIn [] (pathOf ["out", ".uml.json.tmp"]) ".uml.json.tmp" FileTree.maxLinks ["out"] :=
  ⟨ht.lastIn hout (by decide) (by decide), ht.lastIn hout (by decide) (by decide)⟩

/-- The directory for the document is there, with nothing but the two last names to be followed. -/
theorem goes_in_out {t : FileTree} (ht : t.WellFormed) (hout : t.at? ["out"] = some (.directory false)) :
    Goes (.holding t) (.holding t) (pathOf ["out", "uml.json"]) (pathOf ["out", ".uml.json.tmp"]) ["out", "uml.json"]
      ["out", ".uml.json.tmp"] where
  named := by decide
  made := by
    have hfound (follow : Bool) : t.lookup [] follow (pathOf ["out"]) = .ok (["out"], .directory false) :=
      lookup_pathOf ht hout rfl (by decide) [] follow
    exact on_ensureDirectories (by decide) (hfound false) (hfound true)
  located := (lastIn_out ht hout).1.locate_self
  aside := (lastIn_out ht hout).2.locate_self

theorem write_in_out {t : FileTree} {there : Location} (ht : t.WellFormed)
    (hout : t.at? ["out"] = some (.directory false))
    (hleads : t.locate [] true (pathOf ["out", ".uml.json.tmp"]) = .ok there) (hfree : t.Free there)
    (hplain : (t.at? ["out", "uml.json"]).any Node.isDirectory = false) :
    ∃ last, (bare.write (pathOf ["out", "uml.json"])).on (.holding t) = (.ok (pathOf ["out", "uml.json"]), last) :=
  write_returns (by decide) (goes_in_out ht hout).made (by decide) (by decide) (lastIn_out ht hout).2
    (lastIn_out ht hout).1 hleads hfree hplain

/-- A stale file stands beside an earlier document. -/
def staleTree : FileTree where
  nodes := [(["out"], .directory false), (["out", ".uml.json.tmp"], .file [1]), (["out", "notes"], .file [2]),
    (["out", "uml.json"], .file [3])]

theorem write_touches_only_staleTree : ∃ last,
    (bare.write (pathOf ["out", "uml.json"])).on (.holding staleTree) = (.ok (pathOf ["out", "uml.json"]), last) ∧
      TouchesOnly (.holding staleTree) last (pathOf ["out", "uml.json"]) (pathOf ["out", ".uml.json.tmp"])
        ["out", "uml.json"] ["out", ".uml.json.tmp"] (Utf8.encode bare.text) := by
  have ht : staleTree.WellFormed := by decide
  obtain ⟨hlast, hbeside⟩ := lastIn_out ht rfl
  have hfree : staleTree.Free ["out", ".uml.json.tmp"] := .inr ⟨[1], rfl⟩
  obtain ⟨last, hrun⟩ := write_in_out ht rfl (hbeside.locate_eq fun _ link hlink => by cases hlink) hfree rfl
  have hhoused : (Host.holding staleTree).files.Housed (Host.holding staleTree).cwd := .of_wellFormed ht ⟨false, rfl⟩
  obtain ⟨temporary, ready, place, beside, hgoes, honly⟩ := write_touches_only_iff hhoused hrun
  have hknown := goes_in_out ht rfl
  cases hknown.named.symm.trans hgoes.named
  cases hknown.made.symm.trans hgoes.made
  cases hknown.located.symm.trans hgoes.located
  cases hknown.aside.symm.trans hgoes.aside
  refine ⟨last, hrun, honly.mpr ⟨fun link hlink => ?_, hlast.not_mem_trail (.inr ⟨[3], rfl⟩)⟩⟩
  cases hlink

/-- A link to another file stands where the text goes to first. -/
def linkedTree : FileTree where
  nodes := [(["out"], .directory false), (["out", ".uml.json.tmp"], .link "notes"), (["out", "notes"], .file [2])]

/-- Through the link the other file is overwritten, and the document is a link to it. -/
theorem write_through_link : ∃ last,
    (bare.write (pathOf ["out", "uml.json"])).on (.holding linkedTree) = (.ok (pathOf ["out", "uml.json"]), last) ∧
      last.files.at? ["out", "uml.json"] = some (.link "notes") ∧
      linkedTree.at? ["out", "notes"] = some (.file [2]) ∧
      last.files.at? ["out", "notes"] ≠ some (.file [2]) := by
  have ht : linkedTree.WellFormed := by decide
  obtain ⟨hlast, hbeside⟩ := lastIn_out ht rfl
  have hleads : linkedTree.locate [] true (pathOf ["out", ".uml.json.tmp"]) = .ok ["out", "notes"] := by
    have hlink : linkedTree.at? (["out"] ++ [".uml.json.tmp"]) = some (.link "notes") := rfl
    rw [hbeside.locate_eq_walk, FileTree.maxLinks, FileTree.walk_link (by decide) (by decide) hlink]
    have hwalk : linkedTree.walk true 39 ["out"] ["notes"] = .ok (["out"] ++ ["notes"]) :=
      FileTree.walk_last (by decide) (by decide) fun _ link hlink => by cases hlink
    exact hwalk
  obtain ⟨last, hrun⟩ := write_in_out ht rfl hleads (.inr ⟨[2], rfl⟩) rfl
  obtain ⟨_, _, temporary, ready, wrote, hnamed, hmade, hwrite, hmove⟩ := steps_of_write hrun
  have hknown := goes_in_out ht rfl
  cases hknown.named.symm.trans hnamed
  cases hknown.made.symm.trans hmade
  obtain ⟨k, here, there, node, hr⟩ := replaced_of_move hnamed hwrite hmove
  obtain rfl : ["out", "notes"] = there := Except.ok.inj (hleads.symm.trans hr.leads)
  obtain rfl : ["out"] = here := List.append_cancel_right (Except.ok.inj (hlast.locate_self.symm.trans hr.last.locate_self))
  refine ⟨last, hrun, hr.node_of_link rfl, rfl, ?_⟩
  rw [hr.moved.others _ (by decide) (by decide), hr.written.written]
  decide +kernel

end ClassAtlas.Snapshot
