import ClassAtlas.Files.Fault
import ClassAtlas.History.Command
import ClassAtlas.Number.Numeral
import ClassAtlas.Time.Iso
/-!
# Failures

Everything that can stop an action, by cause, and the words for it.
-/
namespace ClassAtlas

/-- What can be wrong with a settings file, which goes by its own name in messages. -/
inductive SettingsFault where
  | unreadable (file cause : String)
  | malformed (file cause : String)
  | notMapping
deriving DecidableEq, Repr

def settingsFile : String := ".umlgen.yml"

def SettingsFault.message : SettingsFault → String
  | unreadable file cause => "Failed to read " ++ file ++ ": " ++ cause
  | malformed file cause => "Failed to parse " ++ file ++ ": " ++ cause
  | notMapping => settingsFile ++ " must contain a mapping at the root"

/-- Values that are written well and stand for nothing. -/
inductive ValueFault where
  | numeral (fault : Numeral.Fault)
  | date (fault : Iso.Fault)
  | noCharacter
deriving DecidableEq, Repr

def ValueFault.message : ValueFault → String
  | numeral fault => fault.message
  | date fault => fault.message
  | noCharacter => "chr() arg not in range(0x110000)"

/-- Settings that are well formed and that the reader of settings has no answer for. -/
inductive ScalarFault where
  /-- A truth value that is none. -/
  | notTruth (text : String)
  /-- A number without a digit. -/
  | emptyNumber
  /-- A time that has not the form of one. -/
  | notTime
  /-- A character with a number of more than 31 bits. -/
  | wideCharacter
deriving DecidableEq, Repr

def ScalarFault.message : ScalarFault → String
  | notTruth text => Text.quoted text
  | emptyNumber => "string index out of range"
  | notTime => "'NoneType' object has no attribute 'groupdict'"
  | wideCharacter => "Python int too large to convert to C int"

inductive Failure where
  | file (fault : FileFault)
  | missingRoot (shown : String)
  | rootNotDirectory (shown : String)
  | settings (fault : SettingsFault)
  | undecodable (path : String) (reason : Utf8.Reason)
  | notWithin (path root : String)
  | noName (path : String)
  | nulInPath
  | linkLoop (path : String)
  | noHome
  | cloneFailed (url cause : String)
  | command (command : Command) (fault : CommandFault)
  | value (fault : ValueFault)
  | scalar (fault : ScalarFault)
  | dateRange
  | numberTooLarge
  | tooDeep (what : String)
deriving DecidableEq, Repr

namespace Failure

def message : Failure → String
  | file fault => fault.message
  | missingRoot shown => "Path does not exist: " ++ shown
  | rootNotDirectory shown => "Path is not a directory: " ++ shown
  | settings fault => fault.message
  | undecodable path reason => path ++ " is not valid UTF-8 text: " ++ reason.message
  | notWithin path root =>
    Text.quoted path ++ " is not in the subpath of " ++ Text.quoted root ++
      " OR one path is relative and the other is absolute."
  | noName path => "PosixPath(" ++ Text.quoted path ++ ") has an empty name"
  | nulInPath => "embedded null byte"
  | linkLoop path => "Symlink loop from " ++ Text.quoted path
  | noHome => "Could not determine home directory."
  | cloneFailed url cause => "Failed to clone repository " ++ url ++ ": " ++ cause
  | command c fault => fault.message c
  | value fault => fault.message
  | scalar fault => fault.message
  | dateRange => "date value out of range"
  | numberTooLarge => "int too large to convert to float"
  | tooDeep what => "maximum recursion depth exceeded" ++ what

/-- Failures of the file system, also those of finding the project or starting a program. -/
def isFileTrouble : Failure → Bool
  | file _ | missingRoot _ | rootNotDirectory _ => true
  | command _ .notFound | command _ .notPermitted => true
  | _ => false

/-- Something that was looked for is not there. -/
def isMissing : Failure → Bool
  | missingRoot _ | file (.system .noEntry _) | command _ .notFound => true
  | _ => false

/-- Something stands where a directory was looked for. -/
def isNoDirectory : Failure → Bool
  | rootNotDirectory _ | file (.system .notDirectory _) => true
  | _ => false

def isSettings : Failure → Bool
  | settings _ => true
  | _ => false

/-- Failures that name the project or its settings as their cause. -/
def isProjectTrouble (f : Failure) : Bool := f.isMissing || f.isNoDirectory || f.isSettings

/-- Other failures that a run reports and ends with. -/
def isRunTrouble : Failure → Bool
  | undecodable .. | linkLoop _ | noHome | cloneFailed .. | tooDeep _ => true
  | command _ (.broken _) => true
  | f => f.isFileTrouble

end Failure
end ClassAtlas
