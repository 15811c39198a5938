import Mathlib
import Eureka.MatchingEvents

/-! `LokiController.queryRange`: what a LogQL query lists. The translated query goes to the engine,
whose answer is dropped, and to `getMatchingEvents`, whose events are written out up to a limit. -/
namespace Eureka.Gateway
open WordBytes RegexSearch Regex JavaText LogQL

section values
variable {env : RangeEnv}

end values

section scanned
variable {readMap : ReadMap} {f : EventFilter}

end scanned

section listed
variable {env : RangeEnv} {query : JString} {lines : List JString}

end listed

section samples

end samples

end Eureka.Gateway
