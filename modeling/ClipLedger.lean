import ClipLedger.Main
import ClipLedger.Model.Server
import ClipLedger.Pipeline.Run
import ClipLedger.Proofs.Model.Body
import ClipLedger.Proofs.Json.Token
import ClipLedger.Proofs.Files.Content
import ClipLedger.Proofs.Files.Growth
import ClipLedger.Proofs.Json.Number
import ClipLedger.Proofs.Json.RoundTrip
import ClipLedger.Proofs.Model.Completion
import ClipLedger.Proofs.Persona.Prompt
import ClipLedger.Proofs.Storage.Dataset
import ClipLedger.Proofs.Analyzer
import ClipLedger.Proofs.Pipeline.Effects
import ClipLedger.Proofs.Pipeline.Conservation
import ClipLedger.Proofs.Pipeline.Collector
import ClipLedger.Proofs.QueueSession
import ClipLedger.Proofs.Novelty.Baseline
import ClipLedger.Proofs.Novelty.Learning
import ClipLedger.Proofs.Pipeline.AppendOnly
import ClipLedger.Proofs.Pipeline.Tasks
import ClipLedger.Proofs.Pipeline.Rounds
import ClipLedger.Proofs.Pipeline.Stepping
import ClipLedger.Proofs.Pipeline.Sleeping
import ClipLedger.Proofs.Pipeline.Worker
import ClipLedger.Proofs.Pipeline.Schedule
import ClipLedger.Proofs.Pipeline.Crew
import ClipLedger.Proofs.Files.Fresh
import ClipLedger.Proofs.Files.Writable
import ClipLedger.Proofs.Json.Spelling
import ClipLedger.Proofs.Model.Chunk
import ClipLedger.Proofs.Model.Variation
import ClipLedger.Proofs.Files.Alike
import ClipLedger.Proofs.Pipeline.Batches
import ClipLedger.Proofs.Files.Added
import ClipLedger.Proofs.Screenshots
import ClipLedger.Proofs.Assets
import ClipLedger.Proofs.Recapture
import ClipLedger.Proofs.Model.Stream
import ClipLedger.Proofs.Novelty.Decay
import ClipLedger.Proofs.Choice
import ClipLedger.Proofs.Cost
import ClipLedger.Proofs.Persona.Verbatim
import ClipLedger.Proofs.PromptLength
import ClipLedger.Proofs.Persona.Thoughts
import ClipLedger.Proofs.Novelty.Reprint
import ClipLedger.Proofs.Classification
import ClipLedger.Proofs.Folders
import ClipLedger.Proofs.Settings.Loading
