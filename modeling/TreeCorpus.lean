import TreeCorpus.Main
import TreeCorpus.Proofs.Catalog.Hidden
import TreeCorpus.Proofs.Catalog.Names
import TreeCorpus.Proofs.Catalog.Observed
import TreeCorpus.Proofs.Catalog.Pages
import TreeCorpus.Proofs.Catalog.Present
import TreeCorpus.Proofs.Catalog.Sidecar
import TreeCorpus.Proofs.Command.Build
import TreeCorpus.Proofs.Command.Layout
import TreeCorpus.Proofs.Command.Overflow
import TreeCorpus.Proofs.Command.Rank
import TreeCorpus.Proofs.Command.Refusal
import TreeCorpus.Proofs.Dataset.Batch
import TreeCorpus.Proofs.Dataset.Failures
import TreeCorpus.Proofs.Dataset.Record
import TreeCorpus.Proofs.Dataset.Restored
import TreeCorpus.Proofs.Dataset.SharedTable
import TreeCorpus.Proofs.Graph.Cycles
import TreeCorpus.Proofs.Graph.Depth
import TreeCorpus.Proofs.Graph.FeatureRows
import TreeCorpus.Proofs.Graph.LineOrder
import TreeCorpus.Proofs.Graph.Nesting
import TreeCorpus.Proofs.Graph.RequestedRoot
import TreeCorpus.Proofs.Graph.Seams
import TreeCorpus.Proofs.Graph.Tensors
import TreeCorpus.Proofs.Graph.Unreachable
import TreeCorpus.Proofs.Graph.Views
import TreeCorpus.Proofs.Inference.Classification
import TreeCorpus.Proofs.Ranking.Shares
import TreeCorpus.Proofs.Settings.File
import TreeCorpus.Proofs.Graph.FeatureText
import TreeCorpus.Proofs.Catalog.EqualPages
import TreeCorpus.Proofs.Catalog.Limit
import TreeCorpus.Proofs.Command.Check
import TreeCorpus.Proofs.Console.Batch
import TreeCorpus.Proofs.Graph.Building
import TreeCorpus.Proofs.Graph.Shape
import TreeCorpus.Proofs.Inference.MeanScores
