import Nezumi.Lib.Run
import Nezumi.Lib.Membership
import Nezumi.Lib.Bins
import Nezumi.Lib.KeyRing
import Nezumi.Lib.Pool
import Nezumi.Lib.Search
import Nezumi.Lib.RbTree
import Nezumi.Common.TimerOrder
import Nezumi.Common.DbRun
import Nezumi.Common.DbForeachRun
import Nezumi.Common.SocketRun
import Nezumi.Map.PathSearch
import Nezumi.Map.PathEnds
import Nezumi.Map.PathPassable
import Nezumi.Map.PcLemmas
import Nezumi.Map.NpcLemmas
import Nezumi.Map.VendingLemmas
import Nezumi.Map.TradeRun
import Nezumi.Map.TradeRestrictions
import Nezumi.Map.StorageRun
import Nezumi.Map.BlockRun
import Nezumi.Map.MoveArea
import Nezumi.Map.ChatRun
import Nezumi.Map.EquipRun
import Nezumi.Login.AnswerLemmas
import Nezumi.Login.AuthRun
import Nezumi.Login.IdentityRun
import Nezumi.Login.OnlineRun
import Nezumi.Login.AccountRestored
import Nezumi.Char.AuthRun
import Nezumi.Char.FriendsRun
import Nezumi.Char.IdentityRun
import Nezumi.Char.WhisperRun
import Nezumi.Char.AccountReg
import Nezumi.Char.CharRestored
import Nezumi.Party.PartyRun
import Nezumi.Script.MapregRun
import Nezumi.Script.Independent
import Nezumi.Script.Termination
import Nezumi.Char.StorageText
import Nezumi.Party.PartyText
import Nezumi.Lib.Removal
import Nezumi.Party.PartyRemoval
import Nezumi.Party.PartyShare
import Nezumi.Map.GuildStorageRun
import Nezumi.Guild.GuildBudget
import Nezumi.Guild.GuildExpRun
import Nezumi.Guild.AllianceRun
import Nezumi.Guild.GuildMemberRun
import Nezumi.Party.PartyServersRun
import Nezumi.Script.DeleteArray
import Nezumi.Script.ReadCode
import Nezumi.Script.Operators
import Nezumi.Script.StrHash
import Nezumi.Common.TimerHeap
import Nezumi.Map.PathLong
import Nezumi.Map.Objects
import Nezumi.Common.Escape
import Nezumi.Common.SpeedSorting
import Nezumi.Map.GrfList
import Nezumi.Map.GrfCipher
import Nezumi.Guild.SaveLines
import Nezumi.Map.GainExpRun
import Nezumi.Map.NpcTimerRun
import Nezumi.Map.PathHeapRun
import Nezumi.Common.IntString
import Nezumi.Map.MobRank
import Nezumi.Char.ChangeSex
import Nezumi.Login.PassFailure
import Nezumi.Map.PlayerReg
import Nezumi.Map.ClifParseRun
import Nezumi.Common.Lock
import Nezumi.Map.StatusPoint
