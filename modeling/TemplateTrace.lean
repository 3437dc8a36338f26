import TemplateTrace.Files
import TemplateTrace.Main
import TemplateTrace.Proofs.Acceptance
import TemplateTrace.Proofs.Brackets
import TemplateTrace.Proofs.Calls
import TemplateTrace.Proofs.Graph.Collapse
import TemplateTrace.Proofs.Graph.RootPaths
import TemplateTrace.Proofs.Graph.Stepping
import TemplateTrace.Proofs.Nesting
import TemplateTrace.Proofs.Recording
import TemplateTrace.Proofs.Graph.Backtracing
import TemplateTrace.Proofs.Graph.FullStepping
import TemplateTrace.Proofs.Graph.DepthFirst
import TemplateTrace.Proofs.Graph.Unmarked
import TemplateTrace.Proofs.Growth
import TemplateTrace.Proofs.Representation
import TemplateTrace.Proofs.Sharing
import TemplateTrace.Proofs.CallForest
import TemplateTrace.Proofs.Reproduction
import TemplateTrace.Proofs.Graph.Visiting
import TemplateTrace.Proofs.Graph.AncestorPath
import TemplateTrace.Proofs.Graph.DepthLimit
import TemplateTrace.Proofs.Graph.StepMarks
import TemplateTrace.Proofs.TraceText
import TemplateTrace.Proofs.Refusal
import TemplateTrace.Proofs.Permanence
import TemplateTrace.Proofs.Abandonment
import TemplateTrace.Proofs.EarliestFault
import TemplateTrace.Proofs.FaultCodes
import TemplateTrace.Proofs.DataModel
import TemplateTrace.Proofs.EventLayout
import TemplateTrace.Proofs.Identity
import TemplateTrace.Proofs.Graph.SteppingBack
import TemplateTrace.Proofs.LineAccount
import TemplateTrace.Proofs.Drawing
import TemplateTrace.Proofs.Visibility
import TemplateTrace.Proofs.Graph.SelfCalls
import TemplateTrace.Proofs.Command.Grammar
import TemplateTrace.Proofs.Command.Settings
import TemplateTrace.Proofs.Command.ReportFormat
