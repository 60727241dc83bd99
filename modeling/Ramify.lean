import Ramify.Fork.Stack
import Ramify.Parse.Parser
import Ramify.Proofs.Fork.Descent
import Ramify.Proofs.Fork.Handles
import Ramify.Proofs.Fork.Reading
import Ramify.Proofs.Fork.Dropping
import Ramify.Proofs.Fork.Copying
import Ramify.Proofs.Fork.View
import Ramify.Proofs.Fork.Outlook
import Ramify.Proofs.Search.Paths
import Ramify.Proofs.Search.Simulation
import Ramify.Proofs.Search.Order
import Ramify.Proofs.Search.Pruning
import Ramify.Proofs.Search.Tally
import Ramify.Proofs.Parse.Solo
import Ramify.Proofs.Fork.Private
import Ramify.Proofs.Parse.Hosting
import Ramify.Proofs.Lookahead
import Ramify.Proofs.Saturation
import Ramify.Proofs.Flat.First
import Ramify.Proofs.Flat.Follow
import Ramify.Proofs.Flat.Recursion
import Ramify.Proofs.Tree.Text
import Ramify.Proofs.Flat.Derivation
import Ramify.Proofs.Parse.Language
import Ramify.Proofs.Parse.Halting
import Ramify.Proofs.Parse.Harvest
import Ramify.Proofs.Parse.Verdict
import Ramify.Proofs.Parse.Genuine
import Ramify.Proofs.Parse.Unfolding
import Ramify.Proofs.Parse.Intact
import Ramify.Proofs.Parse.Independence
import Ramify.Proofs.Parse.Pruning
import Ramify.Proofs.Ebnf.Draft
import Ramify.Proofs.Ebnf.Lowering
import Ramify.Proofs.Ebnf.References
import Ramify.Proofs.Flat.Prediction
import Ramify.Proofs.Search.Lockstep
import Ramify.Proofs.Parse.Shortest
import Ramify.Proofs.Fork.Chunks
import Ramify.Proofs.Parse.Sources
import Ramify.Proofs.Source.Decoding
import Ramify.Proofs.Parse.Calls
import Ramify.Proofs.Parse.Feeds
import Ramify.Proofs.Flat.Emptiness
import Ramify.Proofs.Ebnf.Freshness
import Ramify.Proofs.Ebnf.LeftEdges
import Ramify.Proofs.Ebnf.RoundTrip
import Ramify.Proofs.Search.Layers
import Ramify.Proofs.Fork.History
import Ramify.Proofs.Source.Validity
import Ramify.Proofs.Tree.Replacing
import Ramify.Proofs.Tree.Commuting
import Ramify.Proofs.Parse.Forking
import Ramify.Proofs.Parse.Distinct
import Ramify.Proofs.Tree.Rendering
import Ramify.Proofs.Fork.SkipLinks
import Ramify.Proofs.Fork.Finite
import Ramify.Proofs.Search.Keeping
import Ramify.Proofs.Parse.Growing
