import ExtensiveForm.Setting
import ExtensiveForm.Random.Generator
import ExtensiveForm.Random.Weight
import ExtensiveForm.Analysis.Score
import ExtensiveForm.Analysis.Frequency
import ExtensiveForm.Tree.Same
import ExtensiveForm.Tree.Graph
import ExtensiveForm.Play.Session
import ExtensiveForm.Game.PayoffTable
import ExtensiveForm.Game.Explicit
import ExtensiveForm.Game.Nim
import ExtensiveForm.Game.Machine
import ExtensiveForm.Game.Repeated
import ExtensiveForm.Record.Shared
import ExtensiveForm.Proofs.Lists
import ExtensiveForm.Proofs.Run
import ExtensiveForm.Proofs.Equality
import ExtensiveForm.Proofs.Profile
import ExtensiveForm.Proofs.Score
import ExtensiveForm.Proofs.Walk
import ExtensiveForm.Proofs.Steps
import ExtensiveForm.Proofs.Answers
import ExtensiveForm.Proofs.Graph
import ExtensiveForm.Proofs.Matching
import ExtensiveForm.Proofs.Scale
import ExtensiveForm.Proofs.Rounding
import ExtensiveForm.Proofs.Double
import ExtensiveForm.Proofs.Draws
import ExtensiveForm.Proofs.Same
import ExtensiveForm.Proofs.Decision
import ExtensiveForm.Proofs.Rounds
import ExtensiveForm.Proofs.Independent
import ExtensiveForm.Proofs.Nested
import ExtensiveForm.Proofs.Shared
import ExtensiveForm.Proofs.Log
import ExtensiveForm.Proofs.Shown
import ExtensiveForm.Proofs.CutOff
import ExtensiveForm.Proofs.Bound
import ExtensiveForm.Proofs.Turns
import ExtensiveForm.Proofs.Beside
import ExtensiveForm.Proofs.Legal
import ExtensiveForm.Proofs.Sessions
import ExtensiveForm.Proofs.Replay
import ExtensiveForm.Proofs.Isolation
import ExtensiveForm.Proofs.RandomPlay
import ExtensiveForm.Proofs.Agreement
import ExtensiveForm.Proofs.Pathwise
import ExtensiveForm.Proofs.Payments
import ExtensiveForm.Proofs.Flattening
import ExtensiveForm.Proofs.PerPlayer
import ExtensiveForm.Proofs.Seating
import ExtensiveForm.Proofs.Threshold
import ExtensiveForm.Proofs.PlaysOut
import ExtensiveForm.Proofs.Idle
import ExtensiveForm.Proofs.Truncation
import ExtensiveForm.Proofs.Summary
import ExtensiveForm.Proofs.Table
import ExtensiveForm.Proofs.NormalForm
import ExtensiveForm.Proofs.Faults
import ExtensiveForm.Proofs.Gaps
import ExtensiveForm.Proofs.PayoffTable
import ExtensiveForm.Proofs.Grid
import ExtensiveForm.Proofs.Matrix
import ExtensiveForm.Proofs.DefaultPayoff
import ExtensiveForm.Proofs.RoundMoves
import ExtensiveForm.Proofs.ProfileSpace
import ExtensiveForm.Proofs.Blame
import ExtensiveForm.Proofs.Together
import ExtensiveForm.Proofs.LegalMoves
import ExtensiveForm.Proofs.Quantile
import ExtensiveForm.Proofs.Calls
import ExtensiveForm.Proofs.Reset
import ExtensiveForm.Proofs.Routing
import ExtensiveForm.Proofs.PlayerRounds
import ExtensiveForm.Proofs.Column
import ExtensiveForm.Proofs.Frequency
import ExtensiveForm.Proofs.ScoreTable
import ExtensiveForm.Proofs.SingleMoves
