import GraphKernels.Arithmetic
import GraphKernels.Bitmap
import GraphKernels.Cell
import GraphKernels.Centrality.Brandes
import GraphKernels.Centrality.Check
import GraphKernels.Centrality.Sources
import GraphKernels.Component.Afforest
import GraphKernels.Component.Check
import GraphKernels.Component.Forest
import GraphKernels.Component.Labels
import GraphKernels.Decimal.Shortest
import GraphKernels.Distance.Basic
import GraphKernels.Distance.Check
import GraphKernels.Distance.Dijkstra
import GraphKernels.Distance.Heap
import GraphKernels.Distance.Stepping
import GraphKernels.Document.Basic
import GraphKernels.Document.Parser
import GraphKernels.Event
import GraphKernels.Fault
import GraphKernels.Graph.Basic
import GraphKernels.Graph.Build
import GraphKernels.Graph.DegreeOrder
import GraphKernels.Graph.Rows
import GraphKernels.Graph.Table
import GraphKernels.Hops.Depths
import GraphKernels.Hops.Search
import GraphKernels.Hops.TreeCheck
import GraphKernels.Parameter.Basic
import GraphKernels.Parameter.Decode
import GraphKernels.Proofs.Arithmetic
import GraphKernels.Proofs.Centrality.Agreement
import GraphKernels.Proofs.Centrality.Exact
import GraphKernels.Proofs.Centrality.LevelIndex
import GraphKernels.Proofs.Centrality.Lockstep
import GraphKernels.Proofs.Centrality.PathCounting
import GraphKernels.Proofs.Centrality.PathLevel
import GraphKernels.Proofs.Centrality.Reuse
import GraphKernels.Proofs.Centrality.Serial
import GraphKernels.Proofs.Centrality.Settling
import GraphKernels.Proofs.Centrality.Share
import GraphKernels.Proofs.Centrality.Sources
import GraphKernels.Proofs.Component.Afforest
import GraphKernels.Proofs.Component.Check
import GraphKernels.Proofs.Component.Forest
import GraphKernels.Proofs.Component.Labels
import GraphKernels.Proofs.Component.Roots
import GraphKernels.Proofs.Distance.Buckets
import GraphKernels.Proofs.Distance.Check
import GraphKernels.Proofs.Distance.Dijkstra
import GraphKernels.Proofs.Distance.Heap
import GraphKernels.Proofs.Distance.Relaxation
import GraphKernels.Proofs.Distance.Rounds
import GraphKernels.Proofs.Distance.Settled
import GraphKernels.Proofs.Distance.Stepping
import GraphKernels.Proofs.Ending
import GraphKernels.Proofs.Frontier.Bitmap
import GraphKernels.Proofs.Frontier.History
import GraphKernels.Proofs.Frontier.Positions
import GraphKernels.Proofs.Frontier.Queue
import GraphKernels.Proofs.Frontier.Refusals
import GraphKernels.Proofs.Graph.Build
import GraphKernels.Proofs.Graph.Constructible
import GraphKernels.Proofs.Graph.DegreeOrder
import GraphKernels.Proofs.Graph.EdgeRows
import GraphKernels.Proofs.Graph.InputOrder
import GraphKernels.Proofs.Graph.Level
import GraphKernels.Proofs.Graph.Links
import GraphKernels.Proofs.Graph.Reading
import GraphKernels.Proofs.Graph.Relabelling
import GraphKernels.Proofs.Graph.Route
import GraphKernels.Proofs.Graph.Rows
import GraphKernels.Proofs.Graph.Squish
import GraphKernels.Proofs.Graph.TableRows
import GraphKernels.Proofs.Graph.Tables
import GraphKernels.Proofs.Graph.Walk
import GraphKernels.Proofs.Hops.ArcCounts
import GraphKernels.Proofs.Hops.Depths
import GraphKernels.Proofs.Hops.Directions
import GraphKernels.Proofs.Hops.Level
import GraphKernels.Proofs.Hops.Search
import GraphKernels.Proofs.Hops.Summary
import GraphKernels.Proofs.Hops.Tree
import GraphKernels.Proofs.Hops.TreeCheck
import GraphKernels.Proofs.Random.Draw
import GraphKernels.Proofs.Random.EdgeList
import GraphKernels.Proofs.Ranking.Contraction
import GraphKernels.Proofs.Ranking.InPlace
import GraphKernels.Proofs.Ranking.PushOrder
import GraphKernels.Proofs.Ranking.Residual
import GraphKernels.Proofs.Ranking.Sweep
import GraphKernels.Proofs.Run
import GraphKernels.Proofs.StableSort
import GraphKernels.Proofs.Triangle.Check
import GraphKernels.Proofs.Triangle.Count
import GraphKernels.Proofs.Triangle.Scan
import GraphKernels.Proofs.Verdict
import GraphKernels.Queue.Action
import GraphKernels.Queue.Basic
import GraphKernels.Queue.Batch
import GraphKernels.Random.Draw
import GraphKernels.Random.EdgeList
import GraphKernels.Random.Stream
import GraphKernels.Ranking.Check
import GraphKernels.Ranking.PageRank
import GraphKernels.Rejection
import GraphKernels.Triangle.Check
import GraphKernels.Triangle.Count
import GraphKernels.Graph.Grouping
import GraphKernels.Proofs.Graph.Grouping
