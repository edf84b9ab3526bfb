import ClassAtlas.Text.Split
/-!
# References to remote repositories
-/
namespace ClassAtlas.Checkout

def remoteLeads : List String := ["http://", "https://", "git@"]

/-- Whether a target has to be fetched before it can be read. -/
def isRemote (target : String) : Bool :=
  remoteLeads.any fun lead => lead.toList.isPrefixOf target.toList

def repositoryEnd : List Char := ".git".toList

/-- Drops the usual ending of a repository's name, once. -/
def dropRepositoryEnd (name : List Char) : List Char :=
  if repositoryEnd.isSuffixOf name then name.take (name.length - repositoryEnd.length) else name

/-- The project that a remote reference names: what comes after the last slash and colon. -/
def projectName (url : String) : String :=
  let path := Text.dropEndWhile (· == '/') url.toList
  String.ofList (dropRepositoryEnd (Text.afterLast ':' (Text.afterLast '/' path)))

end ClassAtlas.Checkout
