import Cascades.Search.Run

/-!
# Configuration of the service

The settings come from a file, in which each of them may be left out, and the address to listen on
may be given separately.
-/

namespace Cascades

/-- The settings of a search as a file gives them. -/
structure SearchSettings where
  workers : Option Nat
  maxJobs : Option Nat
  source : Option String
  implement : Option Bool
deriving DecidableEq

/-- The settings of the service as a file gives them. -/
structure ServiceSettings where
  address : Option String
  maxSample : Option Nat
  search : SearchSettings
deriving DecidableEq

/-- The settings of the service. The number of workers is left open if it is not set. -/
structure ServiceConfig where
  address : String
  maxSample : Nat
  workers : Option Nat
  search : SearchConfig
deriving DecidableEq

namespace ServiceSettings

/-- The settings of an empty file. -/
def empty : ServiceSettings :=
  ⟨none, none, none, none, none, none⟩

/-- The settings of a file, or the standard ones in place of those that it leaves out. -/
def config (settings : ServiceSettings) : ServiceConfig where
  address := settings.address.getD "0.0.0.0:3000"
  maxSample := settings.maxSample.getD 1000
  workers := settings.search.workers
  search :=
    { maxJobs := settings.search.maxJobs.getD SearchConfig.standard.maxJobs
      source := settings.search.source
      implement := settings.search.implement.getD SearchConfig.standard.implement }

end ServiceSettings

namespace ServiceConfig

/-- The configuration with another address, if one is given. -/
def withAddress (config : ServiceConfig) (address : Option String) : ServiceConfig :=
  { config with address := address.getD config.address }

/-- The message about a settings file that does not exist. -/
def missingFileMessage (path : String) : String :=
  s!"cannot read {path}: No such file or directory (os error 2)"

end ServiceConfig

end Cascades
