import CommitLanes.Graph.Run
import CommitLanes.Proofs.History.Ancestry
import CommitLanes.Proofs.History.Raise
import CommitLanes.Proofs.History.Gap
import CommitLanes.Proofs.History.Links
import CommitLanes.Proofs.History.Adding
import CommitLanes.Proofs.History.Arrivals
import CommitLanes.Proofs.History.Ascent
import CommitLanes.Proofs.Graph.Runs
import CommitLanes.Proofs.Graph.RowOrder
import CommitLanes.Proofs.History.Still
import CommitLanes.Proofs.Graph.Replay
import CommitLanes.Proofs.Layout.Contents
import CommitLanes.Proofs.Layout.Margin
import CommitLanes.Proofs.Layout.Relabel
import CommitLanes.Proofs.Layout.Strict
import CommitLanes.Proofs.Layout.Below
import CommitLanes.Proofs.Layout.Span
import CommitLanes.Proofs.Graph.Publish
import CommitLanes.Proofs.Graph.Final
import CommitLanes.Proofs.Graph.Request
import CommitLanes.Proofs.Graph.Relink
import CommitLanes.Proofs.Graph.Span
import CommitLanes.Proofs.Layout.Alike
import CommitLanes.Proofs.Layout.Rebuild
import CommitLanes.Proofs.Graph.Rebuild
import CommitLanes.Proofs.Layout.Straightening
import CommitLanes.Proofs.Layout.Locality
import CommitLanes.Proofs.Layout.Threads
import CommitLanes.Proofs.Layout.Check
import CommitLanes.Proofs.Graph.Intact
import CommitLanes.Proofs.Graph.Following
import CommitLanes.Proofs.Layout.Inherit
import CommitLanes.Proofs.Graph.Uncrossed
import CommitLanes.Proofs.Graph.CrossingWindow
import CommitLanes.Proofs.History.Tables
import CommitLanes.Proofs.History.Highlight
import CommitLanes.Proofs.Graph.Highlight
import CommitLanes.Proofs.History.Newest
import CommitLanes.Proofs.Graph.Newest
import CommitLanes.Proofs.Graph.Continuing
import CommitLanes.Proofs.History.Inserting
import CommitLanes.Proofs.Graph.Inserting
import CommitLanes.Proofs.History.FirstParent
import CommitLanes.Proofs.Layout.Zigzag
import CommitLanes.Proofs.StartOrder
import CommitLanes.Proofs.Graph.WindowAncestry
import CommitLanes.Proofs.CommitId.Hex
import CommitLanes.Proofs.CommitId.Parse
import CommitLanes.Proofs.Line
import CommitLanes.Proofs.Layout.Colors
import CommitLanes.Proofs.Graph.Colors
import CommitLanes.Proofs.Layout.Diagonals
import CommitLanes.Proofs.Layout.Splice
import CommitLanes.Proofs.Layout.Gapless
import CommitLanes.Proofs.Layout.FirstFault
import CommitLanes.Proofs.History.OrderCheck
