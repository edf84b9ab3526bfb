import ClassAtlas.Proofs.Atlas.Assembly
/-!
# Identifiers of a session

In a session identifiers are drawn and claimed and packages and stubs are made, in any order. All
identifiers that it hands out differ, and they are the ones that count as issued.
-/
namespace ClassAtlas

/-- A round apart uses the identifiers of the assembly and leaves its packages alone. -/
theorem Assembly.Accounts.gatherApart {a : Assembly} {others : List String} (h : a.Accounts others)
    (rs : List ClassRecord) : Accounts { a with ids := ((start a.ids).gather rs).2.ids }
      (((start a.ids).gather rs).2.packageIds ++ ((start a.ids).newStubs rs).map (·.id) ++ others) := by
  have hown : (start a.ids).Accounts (a.packageIds ++ others) := ⟨h.nodup, h.perm⟩
  have hround : ((start a.ids).gather rs).2.Accounts _ := hown.gather
  refine ⟨hround.nodup, hround.perm.trans (List.perm_iff_count.mpr fun x => ?_)⟩
  simp only [packageIds, List.count_append]
  omega

inductive Operation where
  | fresh (stem : String)
  | claim (id : String)
  | package (path : String)
  | externalPackage
  | add (record : ClassRecord)
  | gather (records : List ClassRecord)
  /-- A round with packages of its own. -/
  | gatherApart (records : List ClassRecord)

/-- The shared assembly, and what was handed out besides its packages. -/
structure Session where
  assembly : Assembly
  drawn : List String
  claimed : List String
  stubs : List ClassRecord
  /-- The packages of the rounds that had their own. -/
  apart : List Package

namespace Session
open Assembly

def start : Session := ⟨.start .sequential, [], [], [], []⟩

def withIds (s : Session) (ids : Ids) : Session := { s with assembly := { s.assembly with ids } }

def step (s : Session) : Operation → Session
  | .fresh stem =>
    let (id, ids) := s.assembly.ids.fresh stem
    { s.withIds ids with drawn := id :: s.drawn }
  | .claim id =>
    match s.assembly.ids.claim id with
    | (true, ids) => { s.withIds ids with claimed := id :: s.claimed }
    | (false, ids) => s.withIds ids
  | .package path => { s with assembly := (s.assembly.package path).2 }
  | .externalPackage => { s with assembly := s.assembly.externalPackage.2 }
  | .add record => { s with assembly := s.assembly.add record }
  | .gather records =>
    { s with assembly := (s.assembly.gather records).2,
             stubs := s.assembly.newStubs records ++ s.stubs }
  | .gatherApart records =>
    let own := Assembly.start s.assembly.ids
    { s.withIds (own.gather records).2.ids with
      stubs := own.newStubs records ++ s.stubs,
      apart := (own.gather records).2.packages ++ s.apart }

def run (ops : List Operation) : Session := ops.foldl step start

/-- What a session has handed out besides the packages of its assembly. -/
def outside (s : Session) : List String :=
  s.drawn ++ s.claimed ++ s.apart.map (·.id) ++ s.stubs.map (·.id)

/-- What the operations keep: all that is issued is accounted for. -/
theorem accounts_step {s : Session} (h : s.assembly.Accounts s.outside) (op : Operation) :
    (s.step op).assembly.Accounts (s.step op).outside := by
  cases op with
  | fresh stem => exact h.issue (s.assembly.ids.issues_fresh stem)
  | claim id =>
    rcases s.assembly.ids.claim_cases id with ⟨next, heq, hissues⟩ | ⟨heq, _⟩
    · simp only [step, heq]
      refine (h.issue hissues).congr (List.perm_iff_count.mpr fun x => ?_)
      simp only [outside, withIds, List.count_append, List.count_cons]
      omega
    · simp only [step, heq]
      exact h
  | package path => exact h.ensures (s.assembly.ensures_package path)
  | externalPackage => exact h.ensures s.assembly.ensures_externalPackage
  | add record => exact h.add
  | gather records =>
    refine h.gather.congr (List.perm_iff_count.mpr fun x => ?_)
    simp only [step, outside, List.map_append, List.count_append]
    omega
  | gatherApart records =>
    refine (h.gatherApart records).congr (List.perm_iff_count.mpr fun x => ?_)
    simp only [step, outside, withIds, packageIds, List.map_append, List.count_append]
    omega

theorem accounts_run (ops : List Operation) : (run ops).assembly.Accounts (run ops).outside := by
  have hsteps : ∀ s : Session, s.assembly.Accounts s.outside →
      (ops.foldl step s).assembly.Accounts (ops.foldl step s).outside := by
    induction ops with
    | nil => exact fun s h => h
    | cons op ops ih => exact fun s h => ih (s.step op) (accounts_step h op)
  exact hsteps start (accounts_start rfl)

/-- After any operations all identifiers handed out differ, and no others count as issued. -/
theorem handedOut_distinct (ops : List Operation) :
    ((run ops).drawn ++ (run ops).claimed ++
      ((run ops).assembly.packages ++ (run ops).apart).map (·.id) ++
        (run ops).stubs.map (·.id)).Nodup ∧
    ∀ id, id ∈ (run ops).assembly.ids.issued ↔ id ∈ (run ops).drawn ++ (run ops).claimed ++
      ((run ops).assembly.packages ++ (run ops).apart).map (·.id) ++ (run ops).stubs.map (·.id) := by
  have haccounts := accounts_run ops
  have hperm : (run ops).assembly.ids.issued.Perm ((run ops).drawn ++ (run ops).claimed ++
      ((run ops).assembly.packages ++ (run ops).apart).map (·.id) ++ (run ops).stubs.map (·.id)) := by
    refine haccounts.perm.trans (List.perm_iff_count.mpr fun x => ?_)
    simp only [outside, packageIds, List.map_append, List.count_append]
    omega
  exact ⟨hperm.nodup_iff.mp haccounts.nodup, fun id => hperm.mem_iff⟩

end Session
end ClassAtlas
