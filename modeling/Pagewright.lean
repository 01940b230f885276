import Pagewright.Editor.Server
import Pagewright.Main
import Pagewright.Watch
import Pagewright.Proofs.Editor.Exchange
import Pagewright.Proofs.Editor.Listing
import Pagewright.Proofs.Editor.Saved
import Pagewright.Proofs.Editor.Serving
import Pagewright.Proofs.Expansion.Settled
import Pagewright.Proofs.Markup.Decoding
import Pagewright.Proofs.Markup.Failure
import Pagewright.Proofs.Markup.Independence
import Pagewright.Proofs.Site.Frame
import Pagewright.Proofs.Site.Isolation
import Pagewright.Proofs.Site.Rebuilding
import Pagewright.Proofs.Site.Report
import Pagewright.Proofs.Site.ScriptReference
import Pagewright.Proofs.Skeleton.Buffered
import Pagewright.Proofs.Style.Abbreviation
import Pagewright.Proofs.Style.Sibling
import Pagewright.Proofs.Keyed
import Pagewright.Proofs.Style.Events
import Pagewright.Proofs.Expansion.Cuts
import Pagewright.Proofs.Project
import Pagewright.Proofs.Style.Levels
import Pagewright.Proofs.Style.Interrupted
import Pagewright.Proofs.Expansion.Leaves
import Pagewright.Proofs.Expansion.Repetition
import Pagewright.Proofs.Skeleton.Shown
import Pagewright.Proofs.Skeleton.Rearranged
import Pagewright.Proofs.Style.Blocks
import Pagewright.Proofs.Site.Exits
import Pagewright.Proofs.Site.Walk
import Pagewright.Proofs.Site.Mirror
import Pagewright.Proofs.LiveReload
import Pagewright.Proofs.Watch
