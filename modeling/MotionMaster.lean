import MotionMaster.Capture.Summary
import MotionMaster.Cert.Swap
import MotionMaster.Client.Connection
import MotionMaster.ConfigFile.Load
import MotionMaster.ConfigFile.Select
import MotionMaster.Device.Calls
import MotionMaster.Device.Cells
import MotionMaster.DeviceManager.Reclamation
import MotionMaster.DeviceManager.Recorder
import MotionMaster.DeviceManager.Transition
import MotionMaster.Dictionary.Enumeration
import MotionMaster.Dump.Extract
import MotionMaster.Eni.CyclicFrame
import MotionMaster.Esi.Addresses
import MotionMaster.Esi.Number
import MotionMaster.Firmware.Package
import MotionMaster.GameLoop.Epoch
import MotionMaster.Hrd.FileList
import MotionMaster.IcMu.Motion
import MotionMaster.IcMu.Ring
import MotionMaster.Monitoring.Coherence
import MotionMaster.Monitoring.Decode
import MotionMaster.Monitoring.RefCounts
import MotionMaster.Monitoring.Stream
import MotionMaster.Notification.Bus
import MotionMaster.OsCommand.Attribution
import MotionMaster.Procedure.Outcome
import MotionMaster.ProcessImage.Fields
import MotionMaster.Refresher.Overtaking
import MotionMaster.Refresher.Period
import MotionMaster.Restore.Enabled
import MotionMaster.Restore.Unwound
import MotionMaster.Sii.Agreement
import MotionMaster.Spoe.Configure
import MotionMaster.Spoe.Connection
import MotionMaster.Spoe.FrameAssembler
import MotionMaster.Spoe.Independence
import MotionMaster.Spoe.InputQueue
import MotionMaster.Spoe.OutputSlot
import MotionMaster.UserCache.Write
