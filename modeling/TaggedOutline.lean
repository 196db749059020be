import TaggedOutline.Main
import TaggedOutline.Proofs.Command.Escape
import TaggedOutline.Proofs.Command.Tags
import TaggedOutline.Proofs.Comment.ColonRun
import TaggedOutline.Proofs.Comment.Start
import TaggedOutline.Proofs.Edit.Export
import TaggedOutline.Proofs.Edit.Gather
import TaggedOutline.Proofs.Edit.Header
import TaggedOutline.Proofs.Edit.Hierarchy
import TaggedOutline.Proofs.Edit.OpenEnd
import TaggedOutline.Proofs.Edit.Remark
import TaggedOutline.Proofs.Edit.Selection
import TaggedOutline.Proofs.Heading.Canonical
import TaggedOutline.Proofs.Heading.Region
import TaggedOutline.Proofs.Text.FileComponent
import TaggedOutline.Proofs.Title.Bracket
import TaggedOutline.Proofs.Title.Code
import TaggedOutline.Proofs.Workspace.Definitions
import TaggedOutline.Proofs.Workspace.Events
import TaggedOutline.Proofs.Workspace.Listener
import TaggedOutline.Proofs.Workspace.Register
import TaggedOutline.Proofs.Workspace.Root
