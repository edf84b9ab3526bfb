import ClassAtlas.Text.Quoted
/-!
# Faults of the file system
-/
namespace ClassAtlas

inductive Errno where
  | noEntry
  | noDevice
  | access
  | busy
  | fileExists
  | notDirectory
  | isDirectory
  | nameTooLong
  | notEmpty
  | linkLoop
deriving DecidableEq, Repr

namespace Errno

def code : Errno → Nat
  | noEntry => 2
  | noDevice => 6
  | access => 13
  | busy => 16
  | fileExists => 17
  | notDirectory => 20
  | isDirectory => 21
  | nameTooLong => 36
  | notEmpty => 39
  | linkLoop => 40

def text : Errno → String
  | noEntry => "No such file or directory"
  | noDevice => "No such device or address"
  | access => "Permission denied"
  | busy => "Device or resource busy"
  | fileExists => "File exists"
  | notDirectory => "Not a directory"
  | isDirectory => "Is a directory"
  | nameTooLong => "File name too long"
  | notEmpty => "Directory not empty"
  | linkLoop => "Too many levels of symbolic links"

end Errno

/-- What a fault is about. -/
inductive FaultSubject where
  | path (p : String)
  | move (source target : String)
  /-- A path that is shown with its kind. -/
  | tree (p : String)
deriving DecidableEq, Repr

def FaultSubject.text : FaultSubject → String
  | path p => Text.quoted p
  | move source target => Text.quoted source ++ " -> " ++ Text.quoted target
  | tree p => "PosixPath(" ++ Text.quoted p ++ ")"

inductive FileFault where
  | system (errno : Errno) (subject : FaultSubject)
  /-- A tree is not removed through a link to it. -/
  | treeBehindLink
deriving DecidableEq, Repr

def FileFault.message : FileFault → String
  | system errno subject =>
    "[Errno " ++ Nat.repr errno.code ++ "] " ++ errno.text ++ ": " ++ subject.text
  | treeBehindLink => "Cannot call rmtree on a symbolic link"

end ClassAtlas
