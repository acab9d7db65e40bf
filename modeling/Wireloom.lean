import Wireloom.Json.Reader
import Wireloom.Json.Writer
import Wireloom.Pass.Manager
import Wireloom.Proofs.Insertion
import Wireloom.Proofs.Conditions
import Wireloom.Proofs.Exactness
import Wireloom.Proofs.Upkeep
