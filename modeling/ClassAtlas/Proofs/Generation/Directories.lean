import ClassAtlas.Proofs.Generation.Failing
import ClassAtlas.Proofs.Host.Directories
/-!
# The directories that a run makes

Whatever comes of a run, the directories that it makes have names of the path above its output.
-/
namespace ClassAtlas

open ClassAtlas.Action

variable {h after : Host} {target : Path}

theorem Action.KeepsDirectories.of_eq {α : Type} {a : Action α} (ha : a.KeepsDirectories) {r : Except Failure α}
    (hrun : a.on h = (r, after)) : h.Spreads [] after := by
  have hspreads := ha h
  rwa [hrun] at hspreads

/-- Once the directories are there, writing a document leaves them as they are. -/
theorem Snapshot.write_spreads {s : Snapshot} {r : Except Failure Path} (hh : h.files.Rooted h.cwd)
    (hrun : (s.write target).on h = (r, after)) : h.Spreads target.parent.parts after := by
  rw [write] at hrun
  cases hlong : s.toJson.hasLongNumber with
  | true =>
    rw [hlong] at hrun
    cases hrun
    exact .refl _
  | false =>
    rw [hlong] at hrun
    rcases bind_cases hrun with ⟨f, hrefused, _⟩ | ⟨_, ready, hensured, hrun⟩
    · exact (makeDirectories_spreads hh hrefused).1
    refine (makeDirectories_spreads hh hensured).1.trans (Host.Spreads.mono ?_ (List.nil_subset _))
    refine KeepsDirectories.of_eq ?_ hrun
    split
    · exact keepsDirectories_throw _
    · refine ((keepsDirectories_writeBytes _ _).bind fun _ => keepsDirectories_replaceFile _ _).attempt.bind fun moved => ?_
      split
      · exact keepsDirectories_pure _
      · split
        · exact (keepsDirectories_removeFile _).bind fun _ => keepsDirectories_throw _
        · exact keepsDirectories_throw _

namespace Generation

variable {ids : Ids} {q : Request} {output : Option String} {r : Except Failure Written}

theorem run_spreads (hh : h.files.Rooted h.cwd) (hrun : (run ids q output).on h = (r, after)) :
    h.Spreads [] after ∨ ∃ target, Targets q output h target ∧ h.Spreads target.parent.parts after := by
  rcases (asks_rootOf _).bind_cases hrun with rfl | ⟨root, hroot, hrun⟩
  · exact .inl (.refl _)
  rcases (Settings.asks_load root).bind_cases hrun with rfl | ⟨settings, hload, hrun⟩
  · exact .inl (.refl _)
  rcases bind_cases hrun with ⟨e, hfirst, _⟩ | ⟨g, composed, hgenerated, hrun⟩
  · exact .inl (.of_noted ((notes_ofSettings _ _ _ _).of_eq hfirst))
  have hnoted := (notes_ofSettings _ _ _ _).of_eq hgenerated
  rcases (asks_outputPath _ _ _ _).bind_cases hrun with rfl | ⟨target, hplaced, hrun⟩
  · exact .inl (.of_noted hnoted)
  have htarget : (outputPath root q output settings).on h = (.ok target, h) := by
    have hanswer := outputPath_noted hnoted root q output settings
    rw [hplaced] at hanswer
    exact Prod.ext hanswer.symm (asks_outputPath root q output settings h)
  have hrooted : composed.files.Rooted composed.cwd := by
    rw [hnoted.cwd]
    exact hnoted.files.rooted hh
  refine .inr ⟨target, ⟨root, settings, hroot, hload, htarget⟩, (Host.Spreads.of_noted hnoted).trans ?_⟩
  rcases bind_cases hrun with ⟨e, hwrite, _⟩ | ⟨written, left, hwrite, hrun⟩
  · exact Snapshot.write_spreads hrooted hwrite
  · have hshown : Notes (info orchestrator ("Output file: " ++ written.toString) >>= fun _ =>
        (pure ⟨g.snapshot, written, g.skipped⟩ : Action Written)) := (notes_info _ _).bind fun _ => notes_pure _
    exact (Snapshot.write_spreads hrooted hwrite).trans (.of_noted (hshown.of_eq hrun))

end Generation
end ClassAtlas
