import SubtermIndex.Cbor.Datum
import SubtermIndex.Indexer.Direct
import SubtermIndex.Indexer.Split
import SubtermIndex.Indexer.Callers
import SubtermIndex.Index.Fingerprint
import SubtermIndex.Sample.RandomTree
import SubtermIndex.Sample.WeakHasher
import SubtermIndex.Sample.Spelling
import SubtermIndex.Sample.Chains
import SubtermIndex.Settings.Writing
import SubtermIndex.Proofs.Lists
import SubtermIndex.Proofs.BinaryFloat
import SubtermIndex.Proofs.Cbor.Encoding
import SubtermIndex.Proofs.Cbor.Alike
import SubtermIndex.Proofs.Cbor.Unambiguous
import SubtermIndex.Proofs.Groups
import SubtermIndex.Proofs.PairSet
import SubtermIndex.Proofs.Node
import SubtermIndex.Proofs.NodeReader
import SubtermIndex.Proofs.Index.Put
import SubtermIndex.Proofs.Indexer.Trace
import SubtermIndex.Proofs.Indexer.Walk
import SubtermIndex.Proofs.Indexer.Split
import SubtermIndex.Proofs.Indexer.Insert
import SubtermIndex.Proofs.Indexer.SplitCollision
import SubtermIndex.Proofs.Collision
import SubtermIndex.Proofs.Index.Closed
import SubtermIndex.Proofs.Index.Contents
import SubtermIndex.Proofs.Index.Unfolding
import SubtermIndex.Proofs.Session
import SubtermIndex.Proofs.HashTree
import SubtermIndex.Proofs.Recovery
import SubtermIndex.Proofs.Plan
import SubtermIndex.Proofs.Contribution
import SubtermIndex.Proofs.ShapeLookup
import SubtermIndex.Proofs.Callers
import SubtermIndex.Proofs.Payload
import SubtermIndex.Proofs.FieldOrder
import SubtermIndex.Indexer.InPlace
import SubtermIndex.Proofs.Index.Acyclic
import SubtermIndex.Proofs.Indexer.InPlace
import SubtermIndex.Indexer.Attempts
import SubtermIndex.Proofs.Attempts
import SubtermIndex.Proofs.Representatives
import SubtermIndex.Proofs.Reindex
import SubtermIndex.Index.Tally
import SubtermIndex.Proofs.Index.Records
import SubtermIndex.Proofs.Index.Tally
import SubtermIndex.Proofs.Index.Union
import SubtermIndex.Proofs.Index.Fingerprint
import SubtermIndex.Proofs.Index.Alike
import SubtermIndex.Proofs.Indexer.Projections
import SubtermIndex.Indexer.Loop
import SubtermIndex.Proofs.Indexer.Recursion
import SubtermIndex.Proofs.Cbor.Accepted
import SubtermIndex.Proofs.Cbor.Shortest
import SubtermIndex.Cbor.Writer
import SubtermIndex.Proofs.Cbor.Writer
import SubtermIndex.Proofs.Payload.Accepted
import SubtermIndex.Proofs.Payload.Equality
import SubtermIndex.Proofs.Payload.Canonical
import SubtermIndex.PairSet.Updates
import SubtermIndex.Proofs.PairSet.Updates
import SubtermIndex.Outline
import SubtermIndex.Proofs.Outline
import SubtermIndex.Indexer.Rounds
import SubtermIndex.Proofs.Indexer.Rounds
import SubtermIndex.Proofs.Indexer.DepthLimit
import SubtermIndex.Proofs.Crew
import SubtermIndex.Proofs.Bytes
import SubtermIndex.Proofs.Indexer.Frontier
import SubtermIndex.Proofs.Rendering
import SubtermIndex.Proofs.Json.Reading
import SubtermIndex.Proofs.Json.Value
import SubtermIndex.Proofs.Settings.Choice
import SubtermIndex.Proofs.Settings.Accepted
import SubtermIndex.Proofs.Settings.Options
import SubtermIndex.Proofs.Json.Text
import SubtermIndex.Proofs.Json.Number
import SubtermIndex.Proofs.Settings.Writing
import SubtermIndex.Proofs.Hex
import SubtermIndex.Proofs.Settings.Validity
import SubtermIndex.Proofs.Sample.Generator
import SubtermIndex.Indexer.Takings
import SubtermIndex.Proofs.Indexer.Lockstep
import SubtermIndex.Proofs.Sample.RandomTree
