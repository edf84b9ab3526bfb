import ClassAtlas.Proofs.Log.Setup
/-!
# Delivery of log records

A log may be set up again and again while records are logged. Where a record goes is told by the last time it was set
up: to the console and to the log file that was opened then, once each, and only from the level that was chosen then.
-/
namespace ClassAtlas

open ClassAtlas.Action

/-! ## What is delivered -/

namespace LogRecord

/-- A record as the console shows it. -/
def consoleLine (r : LogRecord) : String := "[umlgen] " ++ levelName r.level ++ " " ++ r.message ++ "\n"

/-- A record as a log file shows it. -/
def fileLine (r : LogRecord) (now : Moment) : String :=
  clockStamp now ++ " " ++ levelName r.level ++ " " ++ r.logger ++ ": " ++ r.message ++ "\n"

end LogRecord

namespace Sink

def isConsole : Sink → Bool
  | console _ => true
  | file _ _ => false

def isFile : Sink → Bool
  | console _ => false
  | file _ _ => true

end Sink

/-- The bytes of the file at a place. Where there is no file there are none. -/
def FileTree.bytesAt (t : FileTree) (place : Location) : List UInt8 :=
  match t.at? place with
  | some (.file bytes) => bytes
  | _ => []

/-- How a log is set up: whether it is verbose, and the place of its file. -/
structure Route where
  verbose : Bool
  file : Option Location

namespace Route

/-- What setting up the log on a host leads to. A file that cannot be opened counts as none. -/
def opened (h : Host) (verbose : Bool) (file : Option Path) : Route where
  verbose
  file := file.bind fun p => ((Logging.openFile p).on { h with logging := .console verbose }).1.toOption

def logging (route : Route) : Logging :=
  ⟨Logging.levelOf route.verbose, false, .console (Logging.levelOf route.verbose) ::
    (route.file.map fun place => .file (Logging.levelOf route.verbose) (some place)).toList⟩

end Route

/-! ## Runs -/

/-- What may happen to a log. -/
inductive LogStep where
  | configure (verbose : Bool) (file : Option Path)
  | emit (logger : Option String) (level : Int) (message : String)
  /-- The clock moves on. -/
  | wait (now : Moment)

/-- A record, how the log was set up when it was logged, and what the clock showed then. -/
structure Emission where
  record : LogRecord
  route : Route
  now : Moment

namespace Emission

/-- The record is of the level from which the log takes records, or above it. -/
def Taken (e : Emission) : Prop := Logging.levelOf e.route.verbose ≤ e.record.level

instance (e : Emission) : Decidable e.Taken := inferInstanceAs (Decidable (_ ≤ _))

/-- The record goes to the file at a place. -/
def GoesTo (e : Emission) (place : Location) : Prop := e.Taken ∧ e.route.file = some place

instance (e : Emission) (place : Location) : Decidable (e.GoesTo place) := inferInstanceAs (Decidable (_ ∧ _))

/-- Each record that is taken is on the console once, in order. -/
def consoleText (es : List Emission) : String :=
  String.join ((es.filter fun e => e.Taken).map fun e => e.record.consoleLine)

/-- Each record that goes to a file is in it once, in order. -/
def bytesFor (place : Location) (es : List Emission) : List UInt8 :=
  (es.filter fun e => e.GoesTo place).flatMap fun e => Utf8.encode (e.record.fileLine e.now).toList

end Emission

namespace LogStep

/-- A failure to set up the log goes to the caller and does not end the run. -/
def act : LogStep → Action Unit
  | configure verbose file => do
    let _ ← attempt (Logging.configure verbose file)
    pure ()
  | emit logger level message => log logger level message
  | wait now => modify fun h => { h with now }

def run (s : LogStep) (h : Host) : Host := (s.act.on h).2

def route (h : Host) (route : Route) : LogStep → Route
  | configure verbose file => .opened h verbose file
  | emit _ _ _ | wait _ => route

def emission? (h : Host) (route : Route) : LogStep → Option Emission
  | emit logger level message => some ⟨⟨level, LogRecord.loggerName logger, message⟩, route, h.now⟩
  | configure _ _ | wait _ => none

def runAll (steps : List LogStep) (h : Host) : Host := steps.foldl (fun h s => s.run h) h

/-- How the log is set up after some steps. -/
def routeAfter : Host → Route → List LogStep → Route
  | _, route, [] => route
  | h, route, s :: steps => routeAfter (s.run h) (s.route h route) steps

/-- What is logged in some steps. -/
def emissions : Host → Route → List LogStep → List Emission
  | _, _, [] => []
  | h, route, s :: steps => (s.emission? h route).toList ++ emissions (s.run h) (s.route h route) steps

end LogStep

/-! ## Opening a log file -/

variable {h h' h'' : Host} {p : Path} {place : Location} {node : Node} {route : Route}

/-- No file has other bytes, and nothing was shown. New files are empty. -/
structure Host.Opens (h h' : Host) : Prop where
  bytesAt : ∀ place, h'.files.bytesAt place = h.files.bytesAt place
  logging : h'.logging = h.logging
  errors : h'.errors = h.errors

namespace Host.Opens

theorem refl (h : Host) : h.Opens h := ⟨fun _ => rfl, rfl, rfl⟩

theorem trans (hh : h.Opens h') (hh' : h'.Opens h'') : h.Opens h'' where
  bytesAt place := (hh'.bytesAt place).trans (hh.bytesAt place)
  logging := hh'.logging.trans hh.logging
  errors := hh'.errors.trans hh.errors

end Host.Opens

theorem FileTree.bytesAt_put_of_ne {t : FileTree} {q : Location} (hq : q ≠ place) :
    (t.put place node).bytesAt q = t.bytesAt q := by
  simp only [bytesAt, at?_put_of_ne hq]

/-- No other file gets what is added at the end of one. -/
theorem FileTree.bytesAt_put_append {t : FileTree} {bytes : List UInt8} (hfile : t.at? place = some (.file bytes))
    (more : List UInt8) (q : Location) :
    (t.put place (.file (bytes ++ more))).bytesAt q = t.bytesAt q ++ if place = q then more else [] := by
  split
  case isTrue hq =>
    have hne : place ≠ [] := by
      rintro rfl
      cases hfile
    rw [← hq, bytesAt, bytesAt, at?_put_self hne, hfile]
  case isFalse hq => rw [bytesAt_put_of_ne (Ne.symm hq), List.append_nil]

/-- What is put where nothing stood holds no bytes. -/
theorem Host.Opens.put (hh : h.Opens h') (hnone : h'.files.at? place = none)
    (hempty : node = .directory false ∨ node = .file []) :
    h.Opens { h' with files := h'.files.put place node } := by
  refine hh.trans ⟨fun q => ?_, rfl, rfl⟩
  by_cases hq : q = place
  · have hne : place ≠ [] := by
      rintro rfl
      cases hnone
    rw [hq, FileTree.bytesAt, FileTree.bytesAt, FileTree.at?_put_self hne, hnone]
    rcases hempty with rfl | rfl <;> rfl
  · exact FileTree.bytesAt_put_of_ne hq

namespace Logging

theorem opens_openFile (p : Path) (h : Host) : h.Opens ((openFile p).on h).2 := by
  refine Keeps.bind (asks_expandHome p).keeps (fun p => ?_) h (.refl h)
  have hdirectory : ∀ {p : Path}, True → Keeps h.Opens (makeDirectory p) :=
    fun _ => keeps_makeDirectory fun hh _ _ hnone => hh.put hnone (.inl rfl)
  refine (keeps_makeDirectories (Q := fun _ => True) id hdirectory trivial _).bind fun _ => ?_
  refine Asks.keeps (fun _ => rfl) |>.bind fun here => ?_
  exact keeps_openPlace fun hh _ _ hnone => hh.put hnone (.inr rfl)

theorem file_of_openFile (hrun : (openFile p).on h = (.ok place, h')) : ∃ bytes, h'.files.at? place = some (.file bytes) := by
  obtain ⟨_, _, _, hrun⟩ := bind_eq_ok hrun
  obtain ⟨_, _, _, hrun⟩ := bind_eq_ok hrun
  obtain ⟨_, _, _, hrun⟩ := bind_eq_ok hrun
  exact file_of_openPlace hrun

end Logging

/-! ## One step -/

/-- The log of a host is set up so, and its file is there. -/
structure Host.Routed (h : Host) (route : Route) : Prop where
  logging : h.logging = route.logging
  file : ∀ place ∈ route.file, ∃ bytes, h.files.at? place = some (.file bytes)

/-- What was logged got to the console and into the files, and nothing else did. -/
structure Host.Delivers (h h' : Host) (es : List Emission) : Prop where
  errors : h'.errors = h.errors ++ Emission.consoleText es
  bytesAt : ∀ place, h'.files.bytesAt place = h.files.bytesAt place ++ Emission.bytesFor place es

namespace Host.Delivers

variable {es fs : List Emission}

theorem of_same (hbytes : ∀ place, h'.files.bytesAt place = h.files.bytesAt place) (herrors : h'.errors = h.errors) :
    h.Delivers h' [] where
  errors := herrors.trans (String.append_empty).symm
  bytesAt place := (hbytes place).trans (List.append_nil _).symm

theorem trans (hh : h.Delivers h' es) (hh' : h'.Delivers h'' fs) : h.Delivers h'' (es ++ fs) where
  errors := by
    rw [hh'.errors, hh.errors, Emission.consoleText, Emission.consoleText, Emission.consoleText, List.filter_append,
      List.map_append, String.join_append, String.append_assoc]
  bytesAt place := by
    rw [hh'.bytesAt, hh.bytesAt, Emission.bytesFor, Emission.bytesFor, Emission.bytesFor, List.filter_append,
      List.flatMap_append, List.append_assoc]

end Host.Delivers

namespace LogStep

theorem run_configure (h : Host) (verbose : Bool) (file : Option Path) :
    (configure verbose file).run h = ((Logging.configure verbose file).on h).2 := rfl

/-- Setting up the log again loses nothing that was delivered. -/
theorem routed_configure (h : Host) (verbose : Bool) (file : Option Path) :
    ((configure verbose file).run h).Routed (.opened h verbose file) ∧ h.Delivers ((configure verbose file).run h) [] := by
  let begun : Host := { h with logging := .console verbose }
  cases file with
  | none => exact ⟨⟨rfl, by simp [Route.opened]⟩, .of_same (fun _ => rfl) rfl⟩
  | some p =>
    have hopens := Logging.opens_openFile p begun
    rw [run_configure, Logging.on_configure_some]
    rcases hrun : (Logging.openFile p).on begun with ⟨r, next⟩
    have hroute : Route.opened h verbose (some p) = ⟨verbose, r.toOption⟩ := by
      simp only [Route.opened, Option.bind_some, begun] at hrun ⊢
      rw [hrun]
    rw [hrun] at hopens
    rw [hroute]
    cases r with
    | error f =>
      rw [on_bind_of_error hrun]
      exact ⟨⟨hopens.logging, by simp [Except.toOption]⟩, .of_same hopens.bytesAt hopens.errors⟩
    | ok place =>
      rw [on_bind_of_ok hrun]
      refine ⟨⟨?_, ?_⟩, .of_same hopens.bytesAt hopens.errors⟩
      · rw [on_modify, hopens.logging]
        rfl
      · rintro _ ⟨⟩
        obtain ⟨bytes, hfile⟩ := Logging.file_of_openFile hrun
        exact ⟨bytes, hfile⟩

end LogStep

theorem Route.countP_isConsole (route : Route) : route.logging.sinks.countP Sink.isConsole = 1 := by
  obtain ⟨verbose, file⟩ := route
  cases file <;> rfl

theorem Route.countP_isFile_le (route : Route) : route.logging.sinks.countP Sink.isFile ≤ 1 := by
  obtain ⟨verbose, file⟩ := route
  cases file <;> simp [logging, Sink.isFile]

theorem Route.sinksFor_logging (route : Route) (level : Int) : route.logging.sinksFor level =
    if Logging.levelOf route.verbose ≤ level then route.logging.sinks else [] := by
  have hthreshold : route.logging.threshold = Logging.levelOf route.verbose := by
    obtain ⟨verbose, file⟩ := route
    cases verbose <;> rfl
  have hsinks : ∀ s ∈ route.logging.sinks, s.level = Logging.levelOf route.verbose := by
    obtain ⟨verbose, file⟩ := route
    cases file <;> simp [Route.logging, Sink.level]
  rw [Logging.sinksFor, hthreshold]
  split
  case isTrue hbelow => rw [if_neg (by omega)]
  case isFalse habove =>
    rw [if_pos (by omega), List.filter_eq_self]
    intro s hs
    rw [hsinks s hs]
    exact decide_eq_true (by omega)

theorem Action.on_appendTo {bytes : List UInt8} (hfile : h.files.at? place = some (.file bytes)) (text : String) :
    (appendTo place text).on h =
      (.ok ⟨⟩, { h with files := h.files.put place (.file (bytes ++ Utf8.encode text.toList)) }) := by
  rw [appendTo, on_modify, hfile]

namespace LogStep

variable {logger : Option String} {level : Int} {message : String}

theorem run_emit (hr : h.Routed route) : (emit logger level message).run h =
    let r : LogRecord := ⟨level, LogRecord.loggerName logger, message⟩
    (((route.logging.sinksFor level).forM (deliver r)).on { h with journal := h.journal ++ [r] }).2 := by
  obtain ⟨delivered, hdelivered, hlog⟩ := exists_on_log logger level message h
  have hsinks : h.logging.sinks.isEmpty = false := by
    rw [hr.logging]
    rfl
  show ((log logger level message).on h).2 = _
  rw [hlog, hsinks, ← hr.logging]
  dsimp only
  rw [hdelivered]
  rfl

/-- A record of the chosen level goes to the console and to the log file, any other goes nowhere. -/
theorem delivers_emit (hr : h.Routed route) : h.Delivers ((emit logger level message).run h)
    ((emit logger level message).emission? h route).toList := by
  let r : LogRecord := ⟨level, LogRecord.loggerName logger, message⟩
  let noted : Host := { h with journal := h.journal ++ [r] }
  let shown : Host := { noted with errors := h.errors ++ r.consoleLine }
  have hshown (n : Int) : (deliver r (.console n)).on noted = (.ok ⟨⟩, shown) := rfl
  have hemission : ((emit logger level message).emission? h route).toList = [⟨r, route, h.now⟩] := rfl
  rw [run_emit hr, hemission, route.sinksFor_logging]
  dsimp only
  by_cases htaken : Logging.levelOf route.verbose ≤ level
  · rw [if_pos htaken]
    have hconsole : Emission.consoleText [⟨r, route, h.now⟩] = r.consoleLine := by
      simp [Emission.consoleText, Emission.Taken, htaken, r]
    obtain ⟨verbose, file⟩ := route
    cases file with
    | none =>
      refine ⟨by rw [hconsole]; rfl, fun q => ?_⟩
      simp [Emission.bytesFor, Emission.GoesTo]
      rfl
    | some place =>
      obtain ⟨bytes, hfile⟩ := hr.file place rfl
      let written : Host :=
        { shown with files := h.files.put place (.file (bytes ++ Utf8.encode (r.fileLine h.now).toList)) }
      have hwritten (n : Int) : (deliver r (.file n (some place))).on shown = (.ok ⟨⟩, written) := by
        rw [deliver, on_bind_of_ok (on_get shown)]
        exact on_appendTo (h := shown) hfile (r.fileLine h.now)
      have hboth : ((Route.logging ⟨verbose, some place⟩).sinks.forM (deliver r)).on noted = (.ok ⟨⟩, written) := by
        show on (deliver r (.console _) >>= fun _ => deliver r (.file _ (some place)) >>= fun _ => pure ()) noted = _
        rw [on_bind_of_ok (hshown _), on_bind_of_ok (hwritten _), on_pure]
      rw [hboth]
      refine ⟨by rw [hconsole], fun q => ?_⟩
      rw [FileTree.bytesAt_put_append hfile]
      by_cases hq : place = q
      · simp [Emission.bytesFor, Emission.GoesTo, Emission.Taken, htaken, hq, r]
      · simp [Emission.bytesFor, Emission.GoesTo, hq]
  · rw [if_neg htaken]
    refine ⟨?_, fun place => ?_⟩
    · simp [Emission.consoleText, Emission.Taken, htaken, r]
    · simp [Emission.bytesFor, Emission.GoesTo, Emission.Taken, htaken, r]

theorem routed_emit (hr : h.Routed route) : ((emit logger level message).run h).Routed route := by
  have hnoted : h.Noted ((emit logger level message).run h) := notes_log logger level message h
  refine ⟨hnoted.logging.trans hr.logging, fun place hplace => ?_⟩
  obtain ⟨bytes, hfile⟩ := hr.file place hplace
  obtain ⟨node, hnode, hgrown⟩ := hnoted.files.forth hfile
  cases hgrown <;> exact ⟨_, hnode⟩

/-- What one step does to the log. -/
theorem run_step (s : LogStep) (hr : h.Routed route) :
    (s.run h).Routed (s.route h route) ∧ h.Delivers (s.run h) (s.emission? h route).toList := by
  cases s with
  | configure verbose file => exact routed_configure h verbose file
  | emit logger level message => exact ⟨routed_emit hr, delivers_emit hr⟩
  | wait now => exact ⟨⟨hr.logging, hr.file⟩, .of_same (fun _ => rfl) rfl⟩

/-! ## A run -/

theorem run_steps (steps : List LogStep) (hr : h.Routed route) :
    (runAll steps h).Routed (routeAfter h route steps) ∧ h.Delivers (runAll steps h) (emissions h route steps) := by
  induction steps generalizing h route with
  | nil => exact ⟨hr, .of_same (fun _ => rfl) rfl⟩
  | cons s steps ih =>
    obtain ⟨hrouted, hfirst⟩ := s.run_step hr
    obtain ⟨hafter, hrest⟩ := ih hrouted
    exact ⟨hafter, hfirst.trans hrest⟩

end LogStep

end ClassAtlas
