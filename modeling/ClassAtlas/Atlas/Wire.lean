import ClassAtlas.Atlas.Record
import ClassAtlas.Json.Value
/-!
# The document form of an atlas
-/
namespace ClassAtlas

def Method.toJson (m : Method) : Json :=
  .obj [("name", .str m.name), ("visibility", .str m.visibility), ("type", .str m.kind)]

def Metrics.toJson (m : Metrics) : Json :=
  .obj [("cyclomaticComplexity", .int m.cyclomatic), ("cognitiveComplexity", .int m.cognitive),
    ("nestingDepth", .int m.nesting), ("linesOfCode", .int m.lines),
    ("methodCount", .int m.methods), ("threatLevel", .str m.level),
    ("threatColor", .str m.color), ("label", .str m.label),
    ("suggestions", .strs m.suggestions)]

def Commit.toJson (c : Commit) : Json :=
  .obj [("hash", .str c.hash), ("author", .str c.author), ("email", .str c.email),
    ("date", .str c.date), ("message", .str c.message), ("daysAgo", .int c.daysAgo)]

def FileHistory.toJson (h : FileHistory) : Json :=
  .obj [("commitCount", .int h.commits), ("lastCommit", (h.last.map Commit.toJson).getD .null),
    ("isGitTracked", .bool h.last.isSome)]

def ClassRecord.toJson (r : ClassRecord) : Json :=
  .obj [("id", .str r.id), ("name", .str r.name), ("type", .str "class"),
    ("subtype", .str r.subtype.name), ("package", .str r.package), ("filePath", .str r.file),
    ("methods", .arr (r.methods.map Method.toJson)), ("fields", .arr []),
    ("dependencies", .strs r.dependencies), ("extends", .strs r.parents),
    ("implements", .strs r.interfaces), ("complexity", .int r.metrics.cyclomatic),
    ("complexityMetrics", r.metrics.toJson),
    ("coverageMetrics", .obj [("hasCoverage", .bool false), ("overallCoverage", .int 0)]),
    ("metrics", .obj [("lines", .int r.metrics.lines), ("complexity", .int r.metrics.cyclomatic),
      ("methodCount", .int r.metrics.methods), ("coverage", .int 0)]),
    ("gitMetrics", r.history.toJson),
    ("testMetrics", .obj [("exists", .bool r.hasTest), ("coverage", .int 0)]),
    ("isExternal", .bool r.external)]

def Package.toJson (p : Package) : Json :=
  .obj [("id", .str p.id), ("name", .str p.name), ("path", .str p.path),
    ("classes", .strs p.classIds)]

def Project.toJson (p : Project) : Json :=
  .obj [("name", .str p.name), ("description", .str p.description), ("language", .str p.language)]

def Snapshot.toJson (s : Snapshot) : Json :=
  .obj [("version", .str s.version), ("generated", .str s.generated),
    ("project", s.project.toJson), ("packages", .arr (s.packages.map Package.toJson)),
    ("classes", .arr (s.classes.map ClassRecord.toJson))]

end ClassAtlas
