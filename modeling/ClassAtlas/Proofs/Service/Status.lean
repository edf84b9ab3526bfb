import ClassAtlas.Proofs.Generation.Returning
import ClassAtlas.Proofs.Generation.Roots
import ClassAtlas.Service.Answer
/-!
# What the status of an answer tells

A call that asks for an atlas is answered by what becomes of its request. Statuses 404 and 400 are for a path that
leads nowhere and for a project that is refused; with status 200 comes the snapshot. What nobody reckons with has
status 500.
-/
namespace ClassAtlas.Service

open ClassAtlas.Action ClassAtlas.Generation

variable {h : Host} {c : Call} {q : Request} {f : Failure}

/-- The request in a body that is well formed. -/
def requestIn? (body : List Char) : Option Request :=
  match BodyText.read body with
  | .value v => (requestOf v).toOption
  | _ => none

/-- The call asks for an atlas, and its body is well formed. -/
structure Call.Requests (c : Call) (q : Request) : Prop where
  method : c.method = "POST"
  route : Route.ofPath? (pathOf c.target) = some .generate
  body : requestIn? c.body = some q

instance (c : Call) (q : Request) : Decidable (c.Requests q) :=
  decidable_of_iff (c.method = "POST" ∧ Route.ofPath? (pathOf c.target) = some .generate ∧ requestIn? c.body = some q)
    ⟨fun ⟨method, route, body⟩ => ⟨method, route, body⟩, fun hc => ⟨hc.method, hc.route, hc.body⟩⟩

theorem generateFrom_eq {body : List Char} (hbody : requestIn? body = some q) : generateFrom body = generate q := by
  unfold requestIn? at hbody
  rw [generateFrom]
  split at hbody
  case h_2 => cases hbody
  case h_1 v hvalue =>
    rw [hvalue]
    dsimp only
    cases hrequest : requestOf v with
    | error problems =>
      rw [hrequest] at hbody
      cases hbody
    | ok q' =>
      rw [hrequest] at hbody
      cases hbody
      rfl

/-- The reply to a request. -/
def replyFor : Except Failure Generation → Reply
  | .ok g => .ofJson 200 g.snapshot.toJson
  | .error f => replyTo f

theorem on_generate (q : Request) (h : Host) : (generate q).on h =
    (.ok (replyFor ((Generation.generate .sequential q).on h).1), ((Generation.generate .sequential q).on h).2) := by
  rw [generate, on_bind_of_ok (on_attempt _ h)]
  rcases (Generation.generate .sequential q).on h with ⟨result, next⟩
  cases result <;> rfl

/-- A call that asks for an atlas gets the reply to its request. -/
theorem on_answer (hc : c.Requests q) (h : Host) : (answer c).on h =
    (.ok (replyFor ((Generation.generate .sequential q).on h).1), ((Generation.generate .sequential q).on h).2) := by
  have hanswer : answerAt c = generate q := by
    rw [answerAt, hc.route, ← generateFrom_eq hc.body]
    simp only [hc.method, Route.method, bne_self_eq_false, Bool.false_eq_true, if_false]
  have hhead : ¬ c.method = "HEAD" := by
    rw [hc.method]
    decide
  rw [answer, hanswer, on_bind_of_ok (on_generate q h), if_neg hhead]
  rfl

/-! ## The statuses -/

theorem status_of_missing (hf : f.isMissing = true) : (replyTo f).status = 404 := by
  rw [replyTo, if_pos hf]
  rfl

theorem status_of_refusal (hmissing : f.isMissing = false) (hf : (f.isNoDirectory || f.isSettings) = true) :
    (replyTo f).status = 400 := by
  rw [replyTo, hmissing, hf]
  rfl

theorem status_of_other (hf : f.isProjectTrouble = false) : (replyTo f).status = 500 := by
  rw [Failure.isProjectTrouble, Bool.or_eq_false_iff, Bool.or_eq_false_iff] at hf
  rw [replyTo, hf.1.1, hf.1.2, hf.2]
  rfl

/-- A directory with a link in it that leads to itself. -/
def loopTree : FileTree where
  nodes := [(["repo"], .directory false), (["repo", "loop"], .link "loop")]

def callFor (path : String) : Call := ⟨"POST", "/generate", ("\x7b\"path\": \"" ++ path ++ "\"\x7d").toList⟩

theorem wellFormed_loopTree : loopTree.WellFormed := by decide

theorem clean_loopTree : Clean (.holding loopTree) := by
  refine clean_holding fun place target hlink => ?_
  obtain ⟨-, rfl⟩ : place = ["repo", "loop"] ∧ target = "loop" := by simpa [loopTree] using hlink
  decide

theorem tolerable_loopTree : History.Tolerable (Host.holding loopTree).git := by
  rintro name fault (hfault | ⟨_, hfault⟩)
  · cases hfault
    rfl
  · cases hfault
    rfl

theorem bare_loopTree : Bare (.holding loopTree) ["repo"] where
  directory := ⟨false, rfl⟩
  noManifest := by decide
  resolved := by decide
  settingsResolved := by decide
  short := by decide
  noSettings := by decide

theorem found_loopTree : Found (.holding loopTree) "/repo" ["repo"] (.directory false) where
  comes := ⟨by decide, Path.ofString "/repo", rfl, by decide⟩
  seen := lookup_pathOf wellFormed_loopTree (by decide) rfl (by decide) [] true

/-- Without a log, a request is as usual if its path leads to something without links. -/
theorem regular_of_found {place : Location} {node : Node} (hfound : Found h q.path place node)
    (hsinks : h.logging.sinks = []) : Regular h q where
  straight := by
    intro other found hcomes hseen
    obtain rfl := hfound.comes.unique hcomes
    cases hfound.seen.symm.trans hseen
    rfl
  unlogged := by
    intro place node _ there other _ level hmem
    rw [hsinks] at hmem
    cases hmem

theorem walk_loopTree (links : Nat) : loopTree.walk true links ["repo"] ["loop"] = .error .linkLoop := by
  have hview : loopTree.view (["repo"] ++ ["loop"]) = some (.link "loop") := by decide
  induction links with
  | zero =>
    rw [FileTree.walk_step (by decide) (by decide), hview]
    rfl
  | succ links ih =>
    rw [FileTree.walk_step (by decide) (by decide), hview]
    exact ih

end ClassAtlas.Service
