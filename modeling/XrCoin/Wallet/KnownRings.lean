import XrCoin.Wallet.RingShape

/-!
Whether `get_outs` uses a ring again that an output was spent with before.

The members of the ring are asked for when they are among the usable outputs, and they are used from
the answer when they are among the listed ones. For RCT outputs the two numbers differ.
-/

namespace XrCoin.Wallet

open Archive Cryptonote Data

namespace OutsEnv

variable {env : OutsEnv} {tds : List TransferDetails} {td : TransferDetails}
  {answers : List Answer} {draws : ℕ → List (List PickJob.Draw)}

end OutsEnv

end XrCoin.Wallet
