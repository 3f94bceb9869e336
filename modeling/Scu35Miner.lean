import Scu35Miner.Dashboard.Settings.Exchange
import Scu35Miner.Dashboard.SettingsForm.Fresh
import Scu35Miner.Rtl.MinerAxi.HashCount
import Scu35Miner.Rtl.MinerAxi.Stagger
import Scu35Miner.Scripts.VerifySrec.Bootable
import Scu35Miner.Software.Bitcoin.Difficulty
import Scu35Miner.Software.Bitcoin.Hashing
import Scu35Miner.Software.Bootloader.Accept
import Scu35Miner.Software.Bootloader.Framing
import Scu35Miner.Software.Dashboard.Delivery
import Scu35Miner.Software.Dashboard.Password
import Scu35Miner.Software.Eeprom.Transfers
import Scu35Miner.Software.Firmware.Secrecy
import Scu35Miner.Software.MinerProtocol.Residue
import Scu35Miner.Software.Network
import Scu35Miner.Software.Settings.Checksum
import Scu35Miner.Software.Settings.Failure
import Scu35Miner.Software.Srec.Format
import Scu35Miner.Software.Stratum.Device
import Scu35Miner.Software.Stratum.Ranges
import Scu35Miner.Software.Stratum.Shares
