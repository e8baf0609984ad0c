import SoutherNative.ExternalRoundTrip
import SoutherNative.Collection
import SoutherNative.TextOperations
import SoutherNative.ValueCollection
import SoutherNative.Scopes
import SoutherNative.ExternalOrder
import SoutherNative.LinkerNames
import SoutherNative.Composing
import SoutherNative.Crossing
import SoutherNative.SpecializeEnds
import SoutherNative.IntOperations
import SoutherNative.Growing
import SoutherNative.Fitting
import SoutherNative.MergePasses
import SoutherNative.Sorting
import SoutherNative.Building
import SoutherNative.Constructing
import SoutherNative.Lifetimes
import SoutherNative.Callbacks
import SoutherNative.Runs
import SoutherNative.RunSteps
import SoutherNative.Sessions
import SoutherNative.PrefixCode
import SoutherNative.GoNames
import SoutherNative.Positional
import SoutherNative.Decimals
import SoutherNative.Departing
import SoutherNative.Calendar
import SoutherNative.Temporals
import SoutherNative.GoTemporals
import SoutherNative.HelperLoops
import SoutherNative.Replacing
import SoutherNative.Decoding
import SoutherNative.Checked
import SoutherNative.TemporalShifts
import SoutherNative.TemporalTexts
import SoutherNative.SetAlgebra
import SoutherNative.ListingOrder
import SoutherNative.Templates
import SoutherNative.Settling
import SoutherNative.Padding
import SoutherNative.PhpReceiving
import SoutherNative.Duplicates
import SoutherNative.JsonCutting
import SoutherNative.JsonSaying
import SoutherNative.HostPlaces
import SoutherNative.IntegerText
import SoutherNative.TextPieces
import SoutherNative.Comparables
import SoutherNative.ClosureMeaning
import SoutherNative.ClosurePlans
import SoutherNative.Carried
import SoutherNative.Closures
import SoutherNative.Closing
