import Zapatos.Framework.StakeSpec

namespace Zapatos.Stake

end Zapatos.Stake
