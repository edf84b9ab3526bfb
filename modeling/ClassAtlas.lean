import ClassAtlas.CommandLine.Run
import ClassAtlas.Main
import ClassAtlas.Proofs.Analysis.Branching
import ClassAtlas.Proofs.Analysis.Discovery
import ClassAtlas.Proofs.Analysis.LineEnds
import ClassAtlas.Proofs.Atlas.Closure
import ClassAtlas.Proofs.Atlas.Document
import ClassAtlas.Proofs.Atlas.Partition
import ClassAtlas.Proofs.Atlas.Reordering
import ClassAtlas.Proofs.Atlas.Search
import ClassAtlas.Proofs.Atlas.Session
import ClassAtlas.Proofs.Atlas.Target
import ClassAtlas.Proofs.Checkout.Sparing
import ClassAtlas.Proofs.CommandLine.Copies
import ClassAtlas.Proofs.CommandLine.Exit
import ClassAtlas.Proofs.CommandLine.Losing
import ClassAtlas.Proofs.CommandLine.Placement
import ClassAtlas.Proofs.CommandLine.Ranking
import ClassAtlas.Proofs.Files.Agreement
import ClassAtlas.Proofs.Generation.Agreement
import ClassAtlas.Proofs.Generation.Anchoring
import ClassAtlas.Proofs.Generation.Breaking
import ClassAtlas.Proofs.Generation.Failing
import ClassAtlas.Proofs.Generation.Packages
import ClassAtlas.Proofs.Generation.Precedence
import ClassAtlas.Proofs.Generation.Records
import ClassAtlas.Proofs.Generation.Repetition
import ClassAtlas.Proofs.Generation.Roots
import ClassAtlas.Proofs.Generation.Stopping
import ClassAtlas.Proofs.History.Age
import ClassAtlas.Proofs.History.Counting
import ClassAtlas.Proofs.History.LastCommit
import ClassAtlas.Proofs.Host.Action
import ClassAtlas.Proofs.Host.Names
import ClassAtlas.Proofs.Host.Sound
import ClassAtlas.Proofs.Imports.Spellings
import ClassAtlas.Proofs.Json.Limits
import ClassAtlas.Proofs.Log.Delivery
import ClassAtlas.Proofs.Outline.Methods
import ClassAtlas.Proofs.Outline.Printed
import ClassAtlas.Proofs.Outline.Sound
import ClassAtlas.Proofs.Project.Facts
import ClassAtlas.Proofs.Service.Status
import ClassAtlas.Proofs.Settings.Failing
import ClassAtlas.Proofs.Settings.Layers
import ClassAtlas.Proofs.Settings.Loading
import ClassAtlas.Proofs.Settings.Patterns
import ClassAtlas.Proofs.Source.Walk
import ClassAtlas.Proofs.Text.Split
import ClassAtlas.Proofs.Time.Stamps
import ClassAtlas.Service.Answer
