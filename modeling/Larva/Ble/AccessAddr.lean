import Mathlib.Data.List.Basic
import Mathlib.Tactic.Common

/-!
# The access address of a new connection

`ble_ll_conn_calc_access_addr` draws pairs of random numbers until one makes
a valid access address. The loop that counts transitions sets `prev_bit`
before it starts and never again, so every bit is compared with bit 0 and not
with its neighbour, and of the six upper bits only that they are not all
equal is tested. What the tests do give is two differences from the
advertising address and, from unequal halves, unequal bytes.
-/

namespace Larva.Ble.AccessAddr

end Larva.Ble.AccessAddr
